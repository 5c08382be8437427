/-
LinuxBasedOs/TerminalRead.lean

`terminal_read` and the keyboard interrupts that arrive while it runs.

The call and the handler share `key_buf`, `key_buf_index` and `enter_flag`, and
the call does not mask interrupts.  `Reader` is therefore a machine with two
kinds of events: a step of the call itself, and a keyboard interrupt, which
runs `key_handler` to completion at whatever point the call has reached.

What the call is for is said by `Editor`, a line editor that knows nothing of the
buffer: `firstLine` is the line that a sequence of keys types, up to its first
newline.  `terminalRead_line` shows that the call delivers that line in every
interleaving in which no interrupt disturbs it, and `enterFlag_kept_iff` says
exactly in which interleavings a press of Enter is still recorded when the call
looks for it.  The size of the caller's buffer plays no part in any of this;
`terminalRead_within_iff` says when the call stays in it nevertheless.
-/
import LinuxBasedOs.Bytes
import LinuxBasedOs.Keyboard

namespace LinuxBasedOs

open Transition Bytes

/-! ### The call as a machine -/

/-- The characters typed so far and the modifiers held. -/
@[ext] structure Editor where
  line : List UInt8
  shift : Bool
  caps : Bool
  ctrl : Bool

/-- Where the call is. -/
inductive ReadPc where
  | clear                       -- about to call `clear_key_buffer`
  | poll                        -- in `while (1)`, about to test `enter_flag`
  | copy (i : Nat)              -- in the copy loop
  | resetFlag (i : Nat)         -- out of the loop, about to reset `enter_flag`
  | finalClear (i : Nat)
  | done (i : Nat)              -- returned `i`
  deriving DecidableEq

/-- What happens while `terminal_read` waits or copies. -/
inductive ReadEvent where
  | own                         -- the call takes its next step
  | key (input : UInt8)         -- a keyboard interrupt
  deriving DecidableEq

/-- The editor state that the driver's variables represent. -/
def Keyboard.editor (k : Keyboard) : Editor where
  line := k.line
  shift := k.shiftMode ≠ 0
  caps := k.capsMode ≠ 0
  ctrl := k.ctrlMode ≠ 0

/-- The state of a call `terminal_read(STDIN, buf, nbytes)`; the source never
looks at `nbytes`.  `stores` are the bytes it has put into `buf`.  The last two
fields only record what happened: `start` is the editor at the initial
`clear_key_buffer`, and `typed` the codes received since then. -/
structure Reader where
  console : Console
  pc : ReadPc
  stores : List (Nat × UInt8)
  start : Editor
  typed : List UInt8

/-- The call as it begins. -/
def Reader.call (c : Console) : Reader := ⟨c, .clear, [], c.kbd.editor, []⟩

/-- A step of the call. -/
def Reader.own (r : Reader) : Reader :=
  match r.pc with
  | .clear =>
      let k := r.console.kbd.clearKeyBuffer
      { r with console := { r.console with kbd := k }, pc := .poll, start := k.editor, typed := [] }
  | .poll => if r.console.kbd.enterFlag = 1 then { r with pc := .copy 0 } else r
  | .copy i =>
      if i < r.console.kbd.keyBufIndex then
        { r with stores := r.stores ++ [(i, r.console.kbd.keyBuf i)], pc := .copy (i + 1) }
      else { r with pc := .resetFlag i }
  | .resetFlag i =>
      { r with console := { r.console with kbd := { r.console.kbd with enterFlag := 0 } }
               pc := .finalClear i }
  | .finalClear i =>
      { r with console := { r.console with kbd := r.console.kbd.clearKeyBuffer }, pc := .done i }
  | .done _ => r

/-- One such event. -/
def Reader.step (r : Reader) : ReadEvent → Reader
  | .own => r.own
  | .key input => { r with console := r.console.keyHandler input, typed := r.typed ++ [input] }

/-! ### What is typed -/

namespace Editor

/-- The row of the key table for the modifiers held. -/
def row (shift caps : Bool) : Nat :=
  match shift, caps with
  | true, true => 0
  | true, false => 1
  | false, true => 2
  | false, false => 0

/-- One key code: a character is appended, backspace removes the last one.
Releases and modifiers, keys without a character, and keys pressed while Ctrl is
down type nothing. -/
def press (e : Editor) (input : UInt8) : Editor where
  line :=
    if input ≥ 0x80 ∨ Keyboard.IsModifier input then e.line
    else if input = 0x0E then e.line.dropLast
    else if e.ctrl ∨ keyArray (row e.shift e.caps) input = 0 then e.line
    else e.line ++ [keyArray (row e.shift e.caps) input]
  shift :=
    if input = rshiftPressed ∨ input = lshiftPressed then true
    else if input = rshiftReleased ∨ input = lshiftReleased then false else e.shift
  caps := if input = capsPressed then !e.caps else e.caps
  ctrl := if input = ctrlPressed then true else if input = ctrlReleased then false else e.ctrl

/-- The line typed by a sequence of codes, up to and including its first
newline; `none` if it has none yet. -/
def firstLine : Editor → List UInt8 → Option (List UInt8)
  | _, [] => none
  | e, input :: keys =>
      if 10 ∈ (e.press input).line then some (e.press input).line else (e.press input).firstLine keys

/-- A line once complete stays what it was … -/
theorem firstLine_append_of_some {e : Editor} {keys keys' : List UInt8} {line : List UInt8}
    (h : e.firstLine keys = some line) : e.firstLine (keys ++ keys') = some line := by
  induction keys generalizing e with
  | nil => cases h
  | cons input keys ih =>
      rw [List.cons_append, firstLine]
      rw [firstLine] at h
      split_ifs at h ⊢ with hnl
      · exact h
      · exact ih h

/-- … and until then one more key decides. -/
theorem firstLine_concat_of_none {e : Editor} {keys : List UInt8} (input : UInt8)
    (h : e.firstLine keys = none) :
    e.firstLine (keys ++ [input]) =
      if 10 ∈ ((keys.foldl press e).press input).line then
        some ((keys.foldl press e).press input).line
      else none := by
  induction keys generalizing e with
  | nil => rfl
  | cons key keys ih =>
      rw [firstLine] at h
      split_ifs at h with hnl
      rw [List.cons_append, firstLine, if_neg hnl, ih h]
      rfl

/-- Only Enter, with Ctrl up, types a newline. -/
theorem newline_mem_press {e : Editor} (h : 10 ∉ e.line) (input : UInt8) :
    10 ∈ (e.press input).line ↔ input = 0x1C ∧ e.ctrl = false := by
  simp only [press]
  split_ifs with hm hback hnone
  · refine iff_of_false h ?_
    rintro ⟨rfl, -⟩
    exact absurd hm (by decide)
  · refine iff_of_false (fun h' => h (List.mem_of_mem_dropLast h')) ?_
    rintro ⟨rfl, -⟩
    exact absurd hback (by decide)
  · refine iff_of_false h ?_
    rintro ⟨henter, hctrl⟩
    rcases hnone with hc | hz
    · rw [hc] at hctrl
      cases hctrl
    · rw [(keyArray_eq_newline _ input).mpr henter] at hz
      exact absurd hz (by decide)
  · have hctrl : e.ctrl = false := by
      rw [← Bool.not_eq_true]
      exact (not_or.mp hnone).1
    rw [List.mem_append, List.mem_singleton, eq_comm (a := (10 : UInt8)), keyArray_eq_newline]
    exact ⟨fun h' => ⟨h'.resolve_left h, hctrl⟩, fun h' => .inr h'.1⟩

end Editor

/-! ### The driver refines the editor -/

/-- The driver's dictionary is the editor's row. -/
theorem Keyboard.Ok.row {k : Keyboard} (h : k.Ok) : k.dict = Editor.row k.editor.shift k.editor.caps := by
  rw [h.dict]
  rcases h.shift with hs | hs <;> rcases h.caps with hc | hc <;>
    simp only [Keyboard.editor, hs, hc] <;> rfl

/-- The driver does with this code what the editor does: the code types nothing,
or erases, or is a character for which there is room. -/
def Keyboard.Typable (k : Keyboard) (input : UInt8) : Prop :=
  input ≥ 0x80 ∨ Keyboard.IsModifier input ∨ input = 0x0E ∨ k.ctrlMode ≠ 0 ∨
    (k.keyBufIndex < keyBufSize ∧ keyArray k.dict input ≠ 0)

instance (k : Keyboard) (input : UInt8) : Decidable (k.Typable input) :=
  inferInstanceAs (Decidable (_ ∨ _))

/-- The driver follows the modifiers whatever the code. -/
theorem editor_keyHandler_modes {c : Console} (h : c.kbd.Ok) (input : UInt8) :
    (c.keyHandler input).kbd.editor =
      { c.kbd.editor.press input with line := (c.keyHandler input).kbd.line } := by
  obtain ⟨hs, hc, hct, -⟩ := Console.keyHandler_modes input c
  apply Editor.ext
  · rfl
  · show decide ((c.keyHandler input).kbd.shiftMode ≠ 0) = _
    rw [hs, Keyboard.updateModes_shiftMode]
    simp only [Editor.press]
    split_ifs <;> rfl
  · show decide ((c.keyHandler input).kbd.capsMode ≠ 0) = _
    rw [hc, Keyboard.updateModes_capsMode]
    simp only [Editor.press]
    split_ifs
    · rcases h.caps with h0 | h0 <;> simp only [Keyboard.editor, h0] <;> rfl
    · rfl
  · show decide ((c.keyHandler input).kbd.ctrlMode ≠ 0) = _
    rw [hct, Keyboard.updateModes_ctrlMode]
    simp only [Editor.press]
    split_ifs <;> rfl

/-- **One interrupt refines one key of the editor.** -/
theorem editor_keyHandler {c : Console} (h : c.kbd.Ok) {input : UInt8}
    (ht : c.kbd.Typable input) :
    (c.keyHandler input).kbd.editor = c.kbd.editor.press input := by
  have hline : (c.keyHandler input).kbd.line = (c.kbd.editor.press input).line := by
    rw [Console.keyHandler_line h]
    simp only [Editor.press, ← h.row]
    by_cases hm : input ≥ 0x80 ∨ Keyboard.IsModifier input
    · rw [if_pos hm, if_pos hm]
      rfl
    rw [if_neg hm, if_neg hm]
    by_cases hback : input = 0x0E
    · rw [if_pos hback, if_pos hback]
      rfl
    rw [if_neg hback, if_neg hback]
    by_cases hctrl : c.kbd.ctrlMode = 0
    · -- Ctrl is up, so the code is a character and there is room for it
      have hchar : c.kbd.keyBufIndex < keyBufSize ∧ keyArray c.kbd.dict input ≠ 0 := by
        rcases ht with h' | h' | h' | h' | h'
        · exact absurd (.inl h') hm
        · exact absurd (.inr h') hm
        · exact absurd h' hback
        · exact absurd hctrl h'
        · exact h'
      rw [if_pos ⟨hctrl, hchar.1⟩, if_neg]
      · rfl
      · rintro (h' | h')
        · exact absurd hctrl (of_decide_eq_true h')
        · exact hchar.2 h'
    · rw [if_neg fun h' => hctrl h'.1, if_pos (.inl (decide_eq_true hctrl))]
      rfl
  rw [editor_keyHandler_modes h, hline]

/-! ### A call that is not disturbed -/

/-- The code leaves the line buffer as it is. -/
def Keyboard.Quiet (k : Keyboard) (input : UInt8) : Prop :=
  input ≥ 0x80 ∨ Keyboard.IsModifier input ∨
    (input ≠ 0x0E ∧ (k.ctrlMode ≠ 0 ∨ k.keyBufIndex = keyBufSize))

instance (k : Keyboard) (input : UInt8) : Decidable (k.Quiet input) :=
  inferInstanceAs (Decidable (_ ∨ _))

theorem line_keyHandler_of_quiet {c : Console} (h : c.kbd.Ok) {input : UInt8}
    (hq : c.kbd.Quiet input) : (c.keyHandler input).kbd.line = c.kbd.line := by
  rw [Console.keyHandler_line h]
  by_cases hm : input ≥ 0x80 ∨ Keyboard.IsModifier input
  · rw [if_pos hm]
  rcases hq with h' | h' | ⟨hback, hfull⟩
  · exact absurd (.inl h') hm
  · exact absurd (.inr h') hm
  rw [if_neg hm, if_neg hback, if_neg]
  rintro ⟨hctrl, hroom⟩
  rcases hfull with h' | h'
  · exact h' hctrl
  · omega

/-- What must not happen for the call to deliver the line: a flag left over from
an earlier Enter when the call begins; while it polls, an interrupt after Enter,
Enter with Ctrl down, a key without a character, or a character for which there
is no room; while it copies, an interrupt that changes the buffer. -/
def Reader.Undisturbed (r : Reader) : ReadEvent → Prop
  | .own => r.pc = .clear → r.console.kbd.enterFlag = 0
  | .key input =>
      match r.pc with
      | .poll =>
          r.console.kbd.enterFlag = 0 ∧ r.console.kbd.Typable input ∧
            (input = 0x1C → r.console.kbd.ctrlMode = 0)
      | .copy _ => r.console.kbd.Quiet input
      | _ => True

instance Reader.decidableUndisturbed (r : Reader) : (e : ReadEvent) → Decidable (r.Undisturbed e)
  | .own => inferInstanceAs (Decidable (_ → _))
  | .key input =>
      match h : r.pc with
      | .poll =>
          decidable_of_iff (r.console.kbd.enterFlag = 0 ∧ r.console.kbd.Typable input ∧
            (input = 0x1C → r.console.kbd.ctrlMode = 0)) (by rw [Reader.Undisturbed, h])
      | .copy _ => decidable_of_iff (r.console.kbd.Quiet input) (by rw [Reader.Undisturbed, h])
      | .clear | .resetFlag _ | .finalClear _ | .done _ =>
          isTrue (by rw [Reader.Undisturbed, h]; trivial)

/-- The line has been typed and `i` bytes of it stored. -/
structure Reader.Delivered (r : Reader) (line : List UInt8) (i : Nat) : Prop where
  typed : r.start.firstLine r.typed = some line
  le : i ≤ line.length
  stores : r.stores = storesAt 0 (line.take i)

/-- What holds of an undisturbed call, by the point it has reached. -/
def Reader.Progress (r : Reader) : Prop :=
  match r.pc with
  | .clear => r.stores = []
  | .poll =>
      r.stores = [] ∧ r.console.kbd.editor = r.typed.foldl Editor.press r.start ∧
        ((r.console.kbd.enterFlag = 0 ∧ 10 ∉ r.console.kbd.line ∧
            r.start.firstLine r.typed = none) ∨
          (r.console.kbd.enterFlag = 1 ∧ r.start.firstLine r.typed = some r.console.kbd.line))
  | .copy i => r.Delivered r.console.kbd.line i
  | .resetFlag i => ∃ line, r.Delivered line i ∧ i = line.length
  | .finalClear i => ∃ line, r.Delivered line i ∧ i = line.length
  | .done i => ∃ line, r.Delivered line i ∧ i = line.length

/-- The copy loop stores one more byte of the line. -/
theorem Reader.Delivered.store {r : Reader} {i : Nat} (h : r.Delivered r.console.kbd.line i)
    (hi : i < r.console.kbd.keyBufIndex) :
    ({ r with stores := r.stores ++ [(i, r.console.kbd.keyBuf i)], pc := .copy (i + 1) } :
      Reader).Delivered r.console.kbd.line (i + 1) := by
  have hlen : i < r.console.kbd.line.length := by rwa [Keyboard.length_line]
  refine ⟨h.typed, hlen, ?_⟩
  have hget : r.console.kbd.line[i] = r.console.kbd.keyBuf i := by simp [Keyboard.line]
  rw [List.take_succ_eq_append_getElem hlen, storesAt_concat, List.length_take,
    Nat.min_eq_left hlen.le, Nat.zero_add, hget, ← h.stores]

/-- A keyboard interrupt while the call polls. -/
theorem Reader.Progress.key_poll {r : Reader} (hpc : r.pc = .poll) (hok : r.console.kbd.Ok)
    (h : r.Progress) {input : UInt8} (hu : r.Undisturbed (.key input)) :
    (r.step (.key input)).Progress := by
  simp only [Reader.Progress, Reader.Undisturbed, hpc] at h hu
  obtain ⟨hstores, hedit, hflag⟩ := h
  obtain ⟨hflag0, htyp, hctrl⟩ := hu
  -- no line is complete yet, or the flag would be set
  obtain ⟨hnl, hnone⟩ : 10 ∉ r.console.kbd.line ∧ r.start.firstLine r.typed = none := by
    rcases hflag with ⟨-, h⟩ | ⟨h1, -⟩
    · exact h
    · rw [hflag0] at h1
      cases h1
  have hedit' : (r.console.keyHandler input).kbd.editor =
      (r.typed.foldl Editor.press r.start).press input := by
    rw [editor_keyHandler hok htyp, hedit]
  have hline : (r.console.keyHandler input).kbd.line =
      ((r.typed.foldl Editor.press r.start).press input).line := congrArg Editor.line hedit'
  -- only Enter puts a newline into the line
  have hmem : 10 ∈ (r.console.keyHandler input).kbd.line ↔ input = 0x1C := by
    rw [hline, ← hedit, Editor.newline_mem_press (e := r.console.kbd.editor) hnl]
    refine ⟨And.left, fun henter => ⟨henter, ?_⟩⟩
    simp [Keyboard.editor, hctrl henter]
  have hfirst := Editor.firstLine_concat_of_none input hnone
  rw [← hline] at hfirst
  simp only [Reader.Progress, Reader.step, hpc]
  refine ⟨hstores, ?_, ?_⟩
  · rw [hedit', List.foldl_append]
    rfl
  · rw [Console.keyHandler_enterFlag, hfirst]
    by_cases henter : input = 0x1C
    · rw [if_pos henter, if_pos (hmem.mpr henter)]
      exact .inr ⟨rfl, rfl⟩
    · rw [if_neg henter, if_neg fun h => henter (hmem.mp h)]
      exact .inl ⟨rfl, fun h => henter (hmem.mp h), rfl⟩

/-- A keyboard interrupt anywhere in the call. -/
theorem Reader.Progress.key {r : Reader} (hok : r.console.kbd.Ok) (h : r.Progress)
    {input : UInt8} (hu : r.Undisturbed (.key input)) : (r.step (.key input)).Progress := by
  cases hpc : r.pc with
  | clear =>
      simp only [Reader.Progress, Reader.step, hpc] at h ⊢
      exact h
  | poll => exact h.key_poll hpc hok hu
  | copy i =>
      simp only [Reader.Undisturbed, hpc] at hu
      have hline := line_keyHandler_of_quiet hok hu
      simp only [Reader.Progress, hpc] at h
      simp only [Reader.Progress, Reader.step, hpc, hline]
      exact ⟨Editor.firstLine_append_of_some h.typed, h.le, h.stores⟩
  | resetFlag i | finalClear i | done i =>
      simp only [Reader.Progress, hpc] at h
      obtain ⟨line, hd, hlen⟩ := h
      simp only [Reader.Progress, Reader.step, hpc]
      exact ⟨line, ⟨Editor.firstLine_append_of_some hd.typed, hd.le, hd.stores⟩, hlen⟩

/-- A step of the call. -/
theorem Reader.Progress.own {r : Reader} (h : r.Progress) (hu : r.Undisturbed .own) :
    r.own.Progress := by
  cases hpc : r.pc with
  | clear =>
      simp only [Reader.Progress, Reader.Undisturbed, hpc, forall_const] at h hu
      obtain ⟨buf, hbuf⟩ := Keyboard.clearKeyBuffer_eq r.console.kbd
      simp only [Reader.Progress, Reader.own, hpc]
      refine ⟨h, rfl, .inl ⟨?_, ?_, rfl⟩⟩
      · rw [hbuf]
        exact hu
      · rw [Keyboard.line_clearKeyBuffer]
        exact List.not_mem_nil
  | poll =>
      simp only [Reader.Progress, hpc] at h
      obtain ⟨hstores, hedit, hflag⟩ := h
      simp only [Reader.own, hpc]
      -- it polls on, or goes on to copy
      rcases hflag with ⟨h0, hnl⟩ | ⟨h1, hfirst⟩
      · rw [if_neg (by rw [h0]; decide)]
        simp only [Reader.Progress, hpc]
        exact ⟨hstores, hedit, .inl ⟨h0, hnl⟩⟩
      · rw [if_pos h1]
        exact ⟨hfirst, Nat.zero_le _, hstores⟩
  | copy i =>
      simp only [Reader.Progress, hpc] at h
      simp only [Reader.own, hpc]
      split_ifs with hi
      · exact h.store hi
      · have hlen : i = r.console.kbd.line.length := by
          rw [Keyboard.length_line]
          have := h.le
          rw [Keyboard.length_line] at this
          omega
        exact ⟨r.console.kbd.line, ⟨h.typed, h.le, h.stores⟩, hlen⟩
  | resetFlag i | finalClear i =>
      simp only [Reader.Progress, hpc] at h
      obtain ⟨line, hd, hlen⟩ := h
      simp only [Reader.Progress, Reader.own, hpc]
      exact ⟨line, ⟨hd.typed, hd.le, hd.stores⟩, hlen⟩
  | done i =>
      simp only [Reader.own, hpc]
      exact h

theorem Reader.step_ok {r : Reader} (h : r.console.kbd.Ok) (e : ReadEvent) :
    (r.step e).console.kbd.Ok := by
  cases e with
  | key input => exact Console.keyHandler_ok h input
  | own =>
      simp only [Reader.step, Reader.own]
      cases r.pc with
      | clear => exact h.clearKeyBuffer
      | poll =>
          simp only []
          split_ifs <;> exact h
      | copy i =>
          simp only []
          split_ifs <;> exact h
      | resetFlag i => exact ⟨h.index_le, h.shift, h.caps, h.ctrl, h.dict⟩
      | finalClear i => exact h.clearKeyBuffer
      | done i => exact h

/-- **The line is delivered.**  In every interleaving of a call of
`terminal_read` with keyboard interrupts, of any number and at any point, in
which nothing disturbs it: if the call returns `k`, then the bytes it has stored
to the caller's buffer are exactly the line typed since the call began, after
editing, up to and including its first newline, and `k` is its length. -/
theorem terminalRead_line (c : Console) (hok : c.kbd.Ok) (es : List ReadEvent)
    (hu : Along (total Reader.step) Reader.Undisturbed (Reader.call c) es) (k : Nat)
    (hdone : (es.foldl Reader.step (Reader.call c)).pc = .done k) :
    ∃ line, (es.foldl Reader.step (Reader.call c)).start.firstLine
        (es.foldl Reader.step (Reader.call c)).typed = some line ∧
      k = line.length ∧
      (es.foldl Reader.step (Reader.call c)).stores = storesAt 0 line := by
  have hinv := foldl_invariant (I := fun r : Reader => r.console.kbd.Ok ∧ r.Progress)
    (s := Reader.call c) ?_ ⟨hok, rfl⟩ hu
  · obtain ⟨-, hprog⟩ := hinv
    simp only [Reader.Progress, hdone] at hprog
    obtain ⟨line, hd, hlen⟩ := hprog
    refine ⟨line, hd.typed, hlen, ?_⟩
    rw [hd.stores, hlen, List.take_length]
  · rintro r e ⟨hok, hprog⟩ hu
    refine ⟨Reader.step_ok hok e, ?_⟩
    cases e with
    | own => exact hprog.own hu
    | key input => exact hprog.key hok hu

/-- The keys `a` (pressed and released) and Enter, then the call runs on. -/
theorem terminalRead_line_a :
    let es : List ReadEvent :=
      [.own, .key 0x1E, .own, .key 0x9E, .key 0x1C, .own, .own, .own, .own, .key 0x9C, .own, .own]
    let r := es.foldl Reader.step (Reader.call (Console.home (fun _ => 0) 0 Keyboard.boot))
    r.pc = .done 2 ∧ r.stores = [(0, 97), (1, 10)] ∧
      ∃ line, r.start.firstLine r.typed = some line ∧ 2 = line.length ∧ r.stores = storesAt 0 line :=
  ⟨by decide +kernel, by decide +kernel,
    terminalRead_line (Console.home (fun _ => 0) 0 Keyboard.boot) Keyboard.boot_ok _
      (by decide +kernel) 2 (by decide +kernel)⟩

/-- A press of Enter before the call leaves the flag set: the call returns at
once although no line has been typed. -/
theorem terminalRead_stale_flag :
    let es : List ReadEvent := [.key 0x1C, .own, .own, .own, .own, .own]
    let r := es.foldl Reader.step (Reader.call (Console.home (fun _ => 0) 0 Keyboard.boot))
    r.pc = .done 0 ∧ r.typed = [] ∧ r.start.firstLine r.typed = none := by
  decide +kernel

/-! ### Whether Enter is lost -/

/-- The call is between its initial `clear_key_buffer` and the `break`. -/
def Reader.InLoop (r : Reader) : Prop :=
  match r.pc with
  | .poll => True
  | .copy _ => True
  | _ => False

/-- While the call is in its loop, an Enter pressed since it began is recorded. -/
def Reader.EnterKept (r : Reader) : Prop :=
  r.InLoop → 0x1C ∈ r.typed → r.console.kbd.enterFlag = 1

/-- After Enter, while the call is in its loop, no other interrupt arrives. -/
def Reader.NothingAfterEnter (r : Reader) : ReadEvent → Prop
  | .own => True
  | .key input => r.InLoop → 0x1C ∈ r.typed → input = 0x1C

/-- The call's own steps leave the flag alone as long as it is in its loop. -/
theorem Reader.EnterKept.own {r : Reader} (h : r.EnterKept) : r.own.EnterKept := by
  intro hin hmem
  cases hpc : r.pc with
  | clear =>
      simp only [Reader.own, hpc] at hmem
      cases hmem
  | poll =>
      have hin' : r.InLoop := by rw [Reader.InLoop, hpc]; trivial
      simp only [Reader.own, hpc] at hmem ⊢
      split_ifs at hmem ⊢ with h1
      · exact h1
      · exact h hin' hmem
  | copy i =>
      have hin' : r.InLoop := by rw [Reader.InLoop, hpc]; trivial
      simp only [Reader.own, hpc] at hin hmem ⊢
      split_ifs at hin hmem ⊢ with hi
      · exact h hin' hmem
      · exact hin.elim
  | resetFlag i | finalClear i =>
      simp only [Reader.own, hpc] at hin
      exact hin.elim
  | done i =>
      simp only [Reader.InLoop, Reader.own, hpc] at hin

/-- An interrupt resets the flag unless it is itself a press of Enter. -/
theorem Reader.enterKept_key_iff {r : Reader} (input : UInt8) :
    r.NothingAfterEnter (.key input) ↔ (r.step (.key input)).EnterKept := by
  show (r.InLoop → 0x1C ∈ r.typed → input = 0x1C) ↔
    (r.InLoop → 0x1C ∈ r.typed ++ [input] → (r.console.keyHandler input).kbd.enterFlag = 1)
  rw [Console.keyHandler_enterFlag]
  by_cases henter : input = 0x1C
  · exact iff_of_true (fun _ _ => henter) fun _ _ => if_pos henter
  · have hmem : 0x1C ∈ r.typed ++ [input] ↔ 0x1C ∈ r.typed := by
      rw [List.mem_append, List.mem_singleton]
      exact or_iff_left (Ne.symm henter)
    rw [hmem, if_neg henter]
    refine imp_congr_right fun _ => imp_congr_right fun _ => ?_
    exact iff_of_false henter (by decide)

/-- **When Enter is kept.**  In every state of an interleaving, an Enter pressed
since the call's initial `clear_key_buffer` is still recorded in `enter_flag`
while the call is in its loop, exactly if no interrupt other than Enter itself
arrives between that Enter and the call leaving its loop. -/
theorem enterFlag_kept_iff (c : Console) (es : List ReadEvent) :
    Along (total Reader.step) Reader.NothingAfterEnter (Reader.call c) es ↔
      ∀ pre post, es = pre ++ post → (pre.foldl Reader.step (Reader.call c)).EnterKept := by
  have hstart : (Reader.call c).EnterKept := fun hin => hin.elim
  refine along_total_iff (fun r e hr => ?_) hstart es
  cases e with
  | own => exact iff_of_true trivial hr.own
  | key input => exact Reader.enterKept_key_iff input

/-- Releasing the Enter key before the call polls loses the line. -/
theorem enterFlag_lost_on_release :
    let es : List ReadEvent := [.own, .key 0x1C, .key 0x9C]
    let r := es.foldl Reader.step (Reader.call (Console.home (fun _ => 0) 0 Keyboard.boot))
    r.pc = .poll ∧ 0x1C ∈ r.typed ∧ r.console.kbd.enterFlag = 0 := by
  decide +kernel

/-! ### Whether the buffer is large enough -/

/-- The number of bytes copied so far. -/
def Reader.copied (r : Reader) : Nat :=
  match r.pc with
  | .clear | .poll => 0
  | .copy i | .resetFlag i | .finalClear i | .done i => i

/-- The stores go through the buffer place by place. -/
def Reader.InOrder (r : Reader) : Prop := r.stores.map Prod.fst = List.range r.copied

/-- The call has stayed in a buffer of `nbytes` bytes, and returned no more. -/
def Reader.Within (nbytes : Nat) (r : Reader) : Prop :=
  (∀ p ∈ r.stores, p.1 < nbytes) ∧ ∀ i, r.pc = .done i → i ≤ nbytes

/-- When `nbytes` bytes have been copied, the line has no more. -/
def Reader.Fits (nbytes : Nat) (r : Reader) : ReadEvent → Prop
  | .own => r.pc = .copy nbytes → r.console.kbd.keyBufIndex ≤ nbytes
  | .key _ => True

theorem Reader.InOrder.step {r : Reader} (h : r.InOrder) (e : ReadEvent) : (r.step e).InOrder := by
  cases e with
  | key input => exact h
  | own =>
      unfold Reader.InOrder Reader.copied at h
      unfold Reader.InOrder Reader.copied
      simp only [Reader.step, Reader.own]
      cases hpc : r.pc with
      | copy i =>
          rw [hpc] at h
          simp only
          -- the byte behind those that are copied
          split_ifs with hi
          · rw [List.map_append, h, List.range_succ]
            rfl
          · exact h
      | poll =>
          rw [hpc] at h
          simp only
          split_ifs
          · exact h
          · rw [hpc]
            exact h
      | clear | resetFlag i | finalClear i =>
          rw [hpc] at h
          exact h
      | done i =>
          simp only
          rw [hpc] at h ⊢
          exact h

theorem Reader.InOrder.within_iff {r : Reader} (h : r.InOrder) (nbytes : Nat) :
    r.Within nbytes ↔ r.copied ≤ nbytes := by
  have hstores : (∀ p ∈ r.stores, p.1 < nbytes) ↔ ∀ i ∈ List.range r.copied, i < nbytes := by
    rw [← h, List.forall_mem_map]
  rw [Reader.Within, hstores]
  constructor
  · rintro ⟨hall, -⟩
    by_contra hlt
    exact lt_irrefl nbytes (hall nbytes (List.mem_range.mpr (not_le.mp hlt)))
  · intro hle
    refine ⟨fun i hi => (List.mem_range.mp hi).trans_le hle, fun i hi => ?_⟩
    rwa [Reader.copied, hi] at hle

/-- A step leaves the buffer exactly if it copies byte number `nbytes`. -/
theorem Reader.fits_iff {nbytes : Nat} {r : Reader} (h : r.copied ≤ nbytes) (e : ReadEvent) :
    r.Fits nbytes e ↔ (r.step e).copied ≤ nbytes := by
  cases e with
  | key input => exact iff_of_true trivial h
  | own =>
      unfold Reader.copied at h
      unfold Reader.copied Reader.Fits
      simp only [Reader.step, Reader.own]
      cases hpc : r.pc with
      -- no other place stores
      | copy i =>
          rw [hpc] at h
          simp only [ReadPc.copy.injEq] at h ⊢
          split_ifs with hi
          · show (i = nbytes → _) ↔ i + 1 ≤ nbytes
            omega
          · show (i = nbytes → _) ↔ i ≤ nbytes
            omega
      | poll =>
          refine iff_of_true (fun h' => by cases h') ?_
          simp only
          split_ifs
          · exact Nat.zero_le _
          · rw [hpc]
            exact Nat.zero_le _
      | clear => exact iff_of_true (fun h' => by cases h') (Nat.zero_le _)
      | resetFlag i | finalClear i =>
          rw [hpc] at h
          exact iff_of_true (fun h' => by cases h') h
      | done i =>
          refine iff_of_true (fun h' => by cases h') ?_
          simp only
          rw [hpc] at h ⊢
          exact h

/-- **The call stays in its buffer** of `nbytes` bytes and returns no more than that, in
every interleaving with keyboard interrupts, exactly if, whenever it has copied `nbytes`
bytes and looks for another one, the line has none. -/
theorem terminalRead_within_iff (c : Console) (nbytes : Nat) (es : List ReadEvent) :
    (∀ pre post, es = pre ++ post → (pre.foldl Reader.step (Reader.call c)).Within nbytes) ↔
      Along (total Reader.step) (Reader.Fits nbytes) (Reader.call c) es := by
  have hstart : (Reader.call c).InOrder := rfl
  refine (along_total_pair (g := fun t _ => t) (J := fun (r : Reader) (_ : Unit) => r.InOrder)
    (P := fun r _ => r.Within nbytes) es (fun r _ e _ h => h.step e) ?_ (t := ()) hstart ?_).symm
  · intro r _ e _ h hwithin
    rw [(h.step e).within_iff]
    exact Reader.fits_iff ((h.within_iff nbytes).mp hwithin) e
  · exact ⟨fun p hp => absurd hp List.not_mem_nil, fun i hi => by cases hi⟩

/-- A buffer of one byte, and the line `a`: the newline is stored behind the buffer, and
the call returns 2. -/
theorem terminalRead_stores_behind :
    let es : List ReadEvent := [.own, .key 0x1E, .key 0x1C, .own, .own, .own, .own, .own, .own]
    let r := es.foldl Reader.step (Reader.call (Console.home (fun _ => 0) 0 Keyboard.boot))
    r.pc = .done 2 ∧ r.stores = [(0, 97), (1, 10)] ∧ ¬ ∀ p ∈ r.stores, p.1 < 1 := by
  decide +kernel

end LinuxBasedOs
