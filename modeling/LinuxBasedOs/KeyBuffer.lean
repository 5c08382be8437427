/-
LinuxBasedOs/KeyBuffer.lean

Which entries of `key_buf` and `key_array` the keyboard driver touches.

The handler looks its symbol up before it asks what kind of code it has, so the code of
a released key, 0x80 or more, is an index into rows of 128 entries.  And its three ways
to change `key_buf` guard the index differently: appending asks for an index below 128,
clearing goes through the places one by one, but erasing stores at the index itself,
which is 128 when the buffer is full.

`BufferUse` is the driver together with `clear_key_buffer`, which `terminal_read` calls
with interrupts on: a keyboard interrupt may fall between any two of its stores.  The
machine keeps a log of all accesses.  Main result: for every sequence of codes, however
interleaved with clearing, the index stays in range, and the log has no access outside
the arrays exactly if no code is that of a released key and none is a backspace at a full
buffer (`accesses_inBounds_iff`).
-/
import LinuxBasedOs.Keyboard

namespace LinuxBasedOs

open Transition

/-! ### The accesses -/

/-- The accesses of the handler to its two arrays. -/
inductive KeyAccess where
  | lookup (dict input : Nat)   -- `key_array[dict][input]` is read
  | write (i : Nat)             -- `key_buf[i]` is written
  deriving DecidableEq

/-- `key_array` has 3 rows of 128 entries, `key_buf` 128 places. -/
def KeyAccess.InBounds : KeyAccess → Prop
  | .lookup dict input => dict < 3 ∧ input < 128
  | .write i => i < keyBufSize

instance : (a : KeyAccess) → Decidable a.InBounds
  | .lookup dict input => inferInstanceAs (Decidable (dict < 3 ∧ input < 128))
  | .write i => inferInstanceAs (Decidable (i < keyBufSize))

namespace Keyboard

/-- The store of `add_to_buffer`. -/
def addToBufferAccesses (k : Keyboard) : List KeyAccess :=
  if k.keyBufIndex < keyBufSize then [.write k.keyBufIndex] else []

/-- The accesses of `process_to_buffer`. -/
def processToBufferAccesses (input : UInt8) (k : Keyboard) : List KeyAccess :=
  .lookup k.dict input.toNat ::
    if k.ctrlMode ≠ 0 then []
    else if k.keyBufIndex < keyBufSize then k.addToBufferAccesses else []

/-- The accesses of the second half of `key_handler`. -/
def handleSymbolAccesses (input symbol : UInt8) (k : Keyboard) : List KeyAccess :=
  if input ≥ 0x80 ∨ k.modeFlag ≠ 0 then []
  else if symbol = 8 then if k.keyBufIndex > 0 then [.write k.keyBufIndex] else []
  else k.processToBufferAccesses input

/-- The accesses of `key_handler`. -/
def keyHandlerAccesses (input : UInt8) (k : Keyboard) : List KeyAccess :=
  .lookup k.dict input.toNat ::
    (k.updateModes input).handleSymbolAccesses input (keyArray k.dict input)

end Keyboard

theorem Console.processToBuffer_keyBuf {input : UInt8} {c : Console} {i : Nat}
    (h : .write i ∉ c.kbd.processToBufferAccesses input) :
    (c.processToBuffer input).kbd.keyBuf i = c.kbd.keyBuf i := by
  rw [Keyboard.processToBufferAccesses, List.mem_cons, not_or, Keyboard.addToBufferAccesses] at h
  replace h := h.2
  rw [Console.processToBuffer, Keyboard.addToBuffer]
  split_ifs at h ⊢
  · rfl
  · rfl
  · refine Function.update_of_ne (fun heq => h ?_) _ _
    rw [heq]
    exact List.mem_cons_self
  · rfl

/-- A place that is not among the accesses keeps its byte. -/
theorem Console.keyHandler_keyBuf {input : UInt8} {c : Console} {i : Nat}
    (h : .write i ∉ c.kbd.keyHandlerAccesses input) :
    (c.keyHandler input).kbd.keyBuf i = c.kbd.keyBuf i := by
  show (Console.handleSymbol input (keyArray c.kbd.dict input)
    { c with kbd := c.kbd.updateModes input }).kbd.keyBuf i = _
  rw [Keyboard.keyHandlerAccesses, List.mem_cons, not_or] at h
  replace h := h.2
  rw [← Keyboard.updateModes_keyBuf input c.kbd]
  -- the modes do not touch the buffer
  generalize c.kbd.updateModes input = k at h ⊢
  rw [Keyboard.handleSymbolAccesses] at h
  rw [Console.handleSymbol]
  by_cases hrelease : input ≥ 0x80 ∨ k.modeFlag ≠ 0
  · rw [if_pos hrelease]
    rfl
  rw [if_neg hrelease] at h ⊢
  -- a backspace writes at the index below, any other symbol at the index
  by_cases hback : keyArray c.kbd.dict input = 8
  · rw [if_pos hback] at h ⊢
    rw [Console.backspace]
    split_ifs at h ⊢
    · refine Function.update_of_ne (fun heq => h ?_) _ _
      rw [heq]
      exact List.mem_cons_self
    · rfl
  · rw [if_neg hback] at h ⊢
    split_ifs
    · exact Console.processToBuffer_keyBuf h
    · exact Console.processToBuffer_keyBuf h

/-! ### Which of them are in bounds -/

namespace Keyboard

theorem dictOf_lt (shift caps : Int) : dictOf shift caps < 3 := by
  rw [dictOf]
  split_ifs
  all_goals decide

theorem Ok.dict_lt {k : Keyboard} (h : k.Ok) : k.dict < 3 := h.dict ▸ dictOf_lt _ _

/-- Appending stays in the buffer. -/
theorem Ok.processToBufferAccesses {k : Keyboard} (h : k.Ok) {input : UInt8} (hin : input.toNat < 128) :
    ∀ a ∈ k.processToBufferAccesses input, a.InBounds := by
  rw [Keyboard.processToBufferAccesses, List.forall_mem_cons, addToBufferAccesses]
  refine ⟨⟨h.dict_lt, hin⟩, ?_⟩
  split_ifs with hctrl hroom
  · exact List.forall_mem_nil _
  · exact List.forall_mem_singleton.mpr hroom
  · exact List.forall_mem_nil _

/-- **One interrupt** stays in the arrays exactly if its code is that of a key pressed,
and not a backspace at a full buffer. -/
theorem Ok.keyHandlerAccesses_iff {k : Keyboard} (h : k.Ok) (input : UInt8) :
    (∀ a ∈ k.keyHandlerAccesses input, a.InBounds) ↔
      input < 0x80 ∧ ¬ (input = 0x0E ∧ k.keyBufIndex = keyBufSize) := by
  have hu := h.updateModes input
  have hlookup : (KeyAccess.lookup k.dict input.toNat).InBounds ↔ input < 0x80 :=
    and_iff_right h.dict_lt
  rw [keyHandlerAccesses, List.forall_mem_cons, hlookup]
  refine and_congr_right fun hpress => ?_
  simp only [handleSymbolAccesses, keyArray_eq_backspace]
  by_cases hmod : input ≥ 0x80 ∨ (k.updateModes input).modeFlag ≠ 0
  · -- a modifier is not a backspace
    rw [if_pos hmod]
    rw [updateModes_modeFlag] at hmod
    refine iff_of_true (List.forall_mem_nil _) ?_
    rintro ⟨rfl, -⟩
    exact absurd hmod (by decide)
  rw [if_neg hmod]
  by_cases hback : input = 0x0E
  · have hle := h.index_le
    rw [if_pos hback, and_iff_right hback, updateModes_keyBufIndex]
    split_ifs with hpos
    · rw [List.forall_mem_singleton]
      show k.keyBufIndex < keyBufSize ↔ _
      omega
    · refine iff_of_true (List.forall_mem_nil _) fun hfull => ?_
      rw [hfull] at hpos
      exact hpos (by decide)
  · rw [if_neg hback]
    exact iff_of_true (hu.processToBufferAccesses hpress) fun hfull => hback hfull.1

end Keyboard

/-! ### With clearing in between -/

/-- What happens to the buffer. -/
inductive BufferEvent where
  | key (input : UInt8)         -- a keyboard interrupt
  | clear                       -- `clear_key_buffer` makes its next store

/-- The driver, how far `clear_key_buffer` has come (the place it clears next, and 128
when it is about to reset the index), and all accesses so far. -/
structure BufferUse where
  console : Console
  next : Nat
  log : List KeyAccess

/-- Before the first event. -/
def BufferUse.start (c : Console) : BufferUse := ⟨c, 0, []⟩

/-- The next store of `clear_key_buffer`; after the last one, the next call begins. -/
def BufferUse.clear (s : BufferUse) : BufferUse :=
  if s.next < keyBufSize then
    { console := { s.console with kbd := { s.console.kbd with
        keyBuf := Function.update s.console.kbd.keyBuf s.next 0 } }
      next := s.next + 1
      log := s.log ++ [.write s.next] }
  else
    { s with
      console := { s.console with kbd := { s.console.kbd with keyBufIndex := 0 } }
      next := 0 }

/-- One event, with its accesses in the log. -/
def BufferUse.step (s : BufferUse) : BufferEvent → BufferUse
  | .key input =>
      { s with console := s.console.keyHandler input
               log := s.log ++ s.console.kbd.keyHandlerAccesses input }
  | .clear => s.clear

/-- 129 stores without an interrupt are a call of `clear_key_buffer`. -/
theorem BufferUse.clear_call (c : Console) (log : List KeyAccess) :
    ((List.replicate (keyBufSize + 1) BufferEvent.clear).foldl BufferUse.step ⟨c, 0, log⟩).console =
      { c with kbd := c.kbd.clearKeyBuffer } := by
  let cleared (n : Nat) : Keyboard :=
    forLoop (fun i (k : Keyboard) => { k with keyBuf := Function.update k.keyBuf i 0 }) n c.kbd
  have hloop : ∀ n ≤ keyBufSize, ∃ log',
      (List.replicate n BufferEvent.clear).foldl BufferUse.step ⟨c, 0, log⟩ =
        ⟨⟨c.screen, cleared n⟩, n, log'⟩ := by
    intro n hn
    induction n with
    | zero => exact ⟨log, rfl⟩
    | succ n ih =>
        obtain ⟨log', hlog⟩ := ih (Nat.le_of_succ_le hn)
        rw [List.replicate_succ', List.foldl_append, hlog]
        exact ⟨_, if_pos hn⟩
  obtain ⟨log', hlog⟩ := hloop keyBufSize le_rfl
  rw [List.replicate_succ', List.foldl_append, hlog]
  show (BufferUse.clear ⟨⟨c.screen, cleared keyBufSize⟩, keyBufSize, log'⟩).console = _
  rw [BufferUse.clear, if_neg (lt_irrefl keyBufSize)]
  rfl

/-- The step stays in the arrays. -/
def BufferUse.Stays (s : BufferUse) : BufferEvent → Prop
  | .key input => input < 0x80 ∧ ¬ (input = 0x0E ∧ s.console.kbd.keyBufIndex = keyBufSize)
  | .clear => True

instance (s : BufferUse) : (e : BufferEvent) → Decidable (s.Stays e)
  | .key input => inferInstanceAs (Decidable (input < 0x80 ∧ ¬ (input = 0x0E ∧ _)))
  | .clear => isTrue trivial

theorem BufferUse.step_ok {s : BufferUse} (h : s.console.kbd.Ok) (e : BufferEvent) :
    (s.step e).console.kbd.Ok := by
  cases e with
  | key input => exact Console.keyHandler_ok h input
  | clear =>
      show s.clear.console.kbd.Ok
      rw [BufferUse.clear]
      split_ifs
      · exact ⟨h.index_le, h.shift, h.caps, h.ctrl, h.dict⟩
      · exact ⟨Nat.zero_le _, h.shift, h.caps, h.ctrl, h.dict⟩

/-- What the step adds to the log is in bounds exactly if the step stays in the arrays. -/
theorem BufferUse.stays_iff {s : BufferUse} (h : s.console.kbd.Ok) (hlog : ∀ a ∈ s.log, a.InBounds)
    (e : BufferEvent) : s.Stays e ↔ ∀ a ∈ (s.step e).log, a.InBounds := by
  cases e with
  | key input =>
      show _ ↔ ∀ a ∈ s.log ++ s.console.kbd.keyHandlerAccesses input, a.InBounds
      rw [List.forall_mem_append, and_iff_right hlog, h.keyHandlerAccesses_iff]
      exact Iff.rfl
  | clear =>
      refine iff_of_true trivial ?_
      show ∀ a ∈ s.clear.log, a.InBounds
      rw [BufferUse.clear]
      split_ifs with hnext
      · exact List.forall_mem_append.mpr ⟨hlog, List.forall_mem_singleton.mpr hnext⟩
      · exact hlog

/-- **The driver stays in its arrays**, for every sequence of codes and every
interleaving with `clear_key_buffer`: the index is always in 0 .. 128, and all accesses so
far are in bounds, exactly if none of the codes is that of a released key and none a
backspace at a full buffer. -/
theorem accesses_inBounds_iff (c : Console) (hok : c.kbd.Ok) (es : List BufferEvent) :
    (∀ pre post, es = pre ++ post →
      (pre.foldl BufferUse.step (.start c)).console.kbd.keyBufIndex ≤ keyBufSize ∧
        ∀ a ∈ (pre.foldl BufferUse.step (.start c)).log, a.InBounds) ↔
      Along (total BufferUse.step) BufferUse.Stays (.start c) es := by
  have hindex : ∀ pre : List BufferEvent,
      (pre.foldl BufferUse.step (.start c)).console.kbd.Ok := by
    intro pre
    induction pre using List.reverseRecOn with
    | nil => exact hok
    | append_singleton pre e ih =>
        rw [List.foldl_append]
        exact BufferUse.step_ok ih e
  have hexact := along_total_pair (G := BufferUse.Stays) (f := BufferUse.step)
    (g := fun t _ => t) (J := fun s (_ : Unit) => s.console.kbd.Ok)
    (P := fun s _ => ∀ a ∈ s.log, a.InBounds) es
    (fun s _ e _ h => BufferUse.step_ok h e) (fun s _ e _ h hlog => BufferUse.stays_iff h hlog e)
    (s := .start c) (t := ()) hok (List.forall_mem_nil _)
  rw [hexact]
  exact forall₃_congr fun pre post _ => and_iff_right (hindex pre).index_le

/-- Two keys, an interrupted call of `clear_key_buffer`, and a backspace. -/
theorem accesses_inBounds_keys :
    let es : List BufferEvent := [.key 0x1E, .clear, .key 0x30, .clear, .key 0x0E]
    Keyboard.boot.Ok ∧ ∀ pre post, es = pre ++ post →
      let s := pre.foldl BufferUse.step (.start (Console.home (fun _ => 0) 0 Keyboard.boot))
      s.console.kbd.keyBufIndex ≤ keyBufSize ∧ ∀ a ∈ s.log, a.InBounds :=
  ⟨Keyboard.boot_ok, (accesses_inBounds_iff (Console.home (fun _ => 0) 0 Keyboard.boot)
    Keyboard.boot_ok _).mpr (by decide +kernel)⟩

/-- Releasing the key `a` looks up entry 158 of a row; and a backspace after 128 characters
writes place 128. -/
theorem accesses_out_of_bounds :
    let start : BufferUse := .start (Console.home (fun _ => 0) 0 Keyboard.boot)
    KeyAccess.lookup 0 158 ∈ (start.step (.key 0x9E)).log ∧
      KeyAccess.write 128 ∈ ((List.replicate 128 (BufferEvent.key 0x1E) ++ [BufferEvent.key 0x0E]).foldl
        BufferUse.step start).log := by
  decide +kernel

end LinuxBasedOs
