/-
LinuxBasedOs/Modifiers.lean

Shift and Caps Lock: the driver's mode variables against the keys that are held.

`Physical` is the keyboard on the desk: which Shift keys are down, and whether Caps Lock
has been pressed an odd number of times.  The layout is that of the first two rows of
`key_array`: with `Physical.Shifted` a key gives its symbol in the second row, otherwise
that in the first, and for a letter Caps Lock turns Shift around.

The driver loses track of this in three ways.  It has one `shift_mode` for two keys, so
releasing either of them is releasing both.  It has no row for Shift together with Caps
Lock, and takes the unshifted one, also for the keys that Caps Lock should leave alone.
And `terminal_open`, which runs at every program launch, resets the modes whatever is
held.

`typed_as_layout_iff` says exactly when the driver's choice is still the layout's, for
every sequence of codes and launches; `typed_as_layout_of_clean` gives a condition in
terms of the keys alone, under which the modes follow the keys.
-/
import LinuxBasedOs.TerminalRead

namespace LinuxBasedOs

open Transition

/-! ### The layout -/

/-- The keys that are held, and whether Caps Lock is on. -/
structure Physical where
  left : Bool
  right : Bool
  capsOdd : Bool
  deriving DecidableEq

/-- Some Shift key is held. -/
def Physical.held (p : Physical) : Bool := p.left || p.right

/-- The keys after a code has come. -/
def Physical.press (p : Physical) (input : UInt8) : Physical where
  left := if input = lshiftPressed then true else if input = lshiftReleased then false else p.left
  right := if input = rshiftPressed then true else if input = rshiftReleased then false else p.right
  capsOdd := if input = capsPressed then !p.capsOdd else p.capsOdd

/-- The code of a key pressed that is no modifier. -/
def IsPress (input : UInt8) : Prop := input < 0x80 ∧ ¬ Keyboard.IsModifier input

instance (input : UInt8) : Decidable (IsPress input) := inferInstanceAs (Decidable (_ ∧ _))

/-- The key of a letter, `a` to `z`. -/
def IsLetter (input : UInt8) : Prop := 97 ≤ keyArray 0 input ∧ keyArray 0 input ≤ 122

instance (input : UInt8) : Decidable (IsLetter input) := inferInstanceAs (Decidable (_ ∧ _))

/-- The symbol of a key in the first row, or in the second. -/
def layoutSymbol (shifted : Bool) (input : UInt8) : UInt8 := keyArray (if shifted then 1 else 0) input

/-- Whether the key gives its shifted symbol: a letter if exactly one of Shift and Caps
Lock is on, any other key if Shift is. -/
def Physical.shifted (p : Physical) (input : UInt8) : Bool :=
  if IsLetter input then p.held != p.capsOdd else p.held

/-- Beyond the entries that the source lists, the rows hold zeros. -/
theorem keyArray_of_le (dict : Nat) {input : UInt8} (h : 79 ≤ input.toNat) : keyArray dict input = 0 := by
  rw [keyArray, List.getD_eq_getElem?_getD, List.getElem?_eq_none (by rw [length_keyRow]; exact h),
    Option.getD_none]

/-- The third row has the letters of the second, and all else of the first. -/
theorem keyArray_caps (input : UInt8) :
    keyArray 2 input = layoutSymbol (decide (IsLetter input)) input := by
  have hrow : ∀ n < 79, (keyRow 2).getD n 0 = (keyRow (if decide (97 ≤ (keyRow 0).getD n 0 ∧
      (keyRow 0).getD n 0 ≤ 122) then 1 else 0)).getD n 0 := by
    decide +kernel
  rcases Nat.lt_or_ge input.toNat 79 with hlt | hge
  · exact hrow _ hlt
  · rw [layoutSymbol, keyArray_of_le _ hge, keyArray_of_le _ hge]

/-! ### The driver's choice -/

/-- The symbol that `process_to_buffer` looks up. -/
def Keyboard.symbol (k : Keyboard) (input : UInt8) : UInt8 := keyArray (k.updateModes input).dict input

/-- Whether this is the shifted symbol: for a letter if exactly one of the modes is on,
for any other key if `shift_mode` is and `caps_mode` is not. -/
def Keyboard.shifted (k : Keyboard) (input : UInt8) : Bool :=
  if IsLetter input then k.editor.shift != k.editor.caps else k.editor.shift && !k.editor.caps

theorem keyArray_row (shift caps : Bool) (input : UInt8) :
    keyArray (Editor.row shift caps) input =
      layoutSymbol (if IsLetter input then shift != caps else shift && !caps) input := by
  match shift, caps with
  | true, true => split_ifs <;> rfl
  | true, false => split_ifs <;> rfl
  | false, true =>
      show keyArray 2 input = _
      rw [keyArray_caps]
      split_ifs with hletter
      · rw [decide_eq_true hletter]
        rfl
      · rw [decide_eq_false hletter]
        rfl
  | false, false => split_ifs <;> rfl

theorem Keyboard.Ok.symbol_eq {k : Keyboard} (h : k.Ok) {input : UInt8} (hp : IsPress input) :
    k.symbol input = layoutSymbol (k.shifted input) input := by
  rw [Keyboard.symbol, Keyboard.updateModes_of_not_modifier h hp.2]
  show keyArray k.dict input = _
  rw [h.row, keyArray_row]
  rfl

/-- It is what the handler appends to the line. -/
theorem Console.keyHandler_symbol {c : Console} (h : c.kbd.Ok) {input : UInt8} (hp : IsPress input)
    (hback : input ≠ 0x0E) (hroom : c.kbd.ctrlMode = 0 ∧ c.kbd.keyBufIndex < keyBufSize) :
    (c.keyHandler input).kbd.line = c.kbd.line ++ [c.kbd.symbol input] := by
  have hno : ¬ (input ≥ 0x80 ∨ Keyboard.IsModifier input) := not_or.mpr ⟨UInt8.not_le.mpr hp.1, hp.2⟩
  rw [Console.keyHandler_line h, if_neg hno, if_neg hback, if_pos hroom, Keyboard.symbol,
    Keyboard.updateModes_of_not_modifier h hp.2]

theorem layoutSymbol_eq_iff (a b : Bool) (input : UInt8) :
    layoutSymbol a input = layoutSymbol b input ↔ (keyArray 0 input ≠ keyArray 1 input → a = b) := by
  match a, b with
  | true, true => exact iff_of_true rfl fun _ => rfl
  | false, false => exact iff_of_true rfl fun _ => rfl
  | true, false =>
      show keyArray 1 input = keyArray 0 input ↔ _
      rw [eq_comm]
      exact ⟨fun h hne => absurd h hne, fun h => by_contra fun hne => Bool.noConfusion (h hne)⟩
  | false, true =>
      show keyArray 0 input = keyArray 1 input ↔ _
      exact ⟨fun h hne => absurd h hne, fun h => by_contra fun hne => Bool.noConfusion (h hne)⟩

/-! ### Codes and launches -/

/-- What happens to the keyboard. -/
inductive TypingEvent where
  | key (input : UInt8)         -- a keyboard interrupt
  | terminalOpen                -- a program is launched

/-- The driver, the keys, and for every key pressed so far the symbol that the driver has
chosen with the one that the layout gives. -/
structure Typing where
  console : Console
  keys : Physical
  chosen : List (UInt8 × UInt8)

/-- One event; of a press it is noted which symbol was chosen, and which one the keys stand for. -/
def Typing.step (s : Typing) : TypingEvent → Typing
  | .key input =>
      { console := s.console.keyHandler input
        keys := s.keys.press input
        chosen :=
          if IsPress input then
            s.chosen ++ [(s.console.kbd.symbol input, layoutSymbol (s.keys.shifted input) input)]
          else s.chosen }
  | .terminalOpen =>
      { s with console := { s.console with kbd := s.console.kbd.keyboardEnvironment } }

/-- The modes and the keys ask for the same symbol, if the key has two. -/
def Typing.Agrees (s : Typing) : TypingEvent → Prop
  | .key input => IsPress input → keyArray 0 input ≠ keyArray 1 input →
      s.console.kbd.shifted input = s.keys.shifted input
  | .terminalOpen => True

instance (s : Typing) : (e : TypingEvent) → Decidable (s.Agrees e)
  | .key input => inferInstanceAs (Decidable (IsPress input → keyArray 0 input ≠ keyArray 1 input → _ = _))
  | .terminalOpen => isTrue trivial

theorem Typing.step_ok {s : Typing} (h : s.console.kbd.Ok) (e : TypingEvent) :
    (s.step e).console.kbd.Ok := by
  cases e with
  | key input => exact Console.keyHandler_ok h input
  | terminalOpen => exact h.keyboardEnvironment

/-- The driver's choice for one key is the layout's exactly if modes and keys agree. -/
theorem Typing.agrees_iff {s : Typing} (h : s.console.kbd.Ok) (hs : ∀ p ∈ s.chosen, p.1 = p.2)
    (e : TypingEvent) : s.Agrees e ↔ ∀ p ∈ (s.step e).chosen, p.1 = p.2 := by
  cases e with
  | terminalOpen => exact iff_of_true trivial hs
  | key input =>
      by_cases hp : IsPress input
      · have hchosen : (s.step (.key input)).chosen =
            s.chosen ++ [(s.console.kbd.symbol input, layoutSymbol (s.keys.shifted input) input)] :=
          if_pos hp
        rw [hchosen, List.forall_mem_append, and_iff_right hs, List.forall_mem_singleton,
          h.symbol_eq hp, layoutSymbol_eq_iff]
        exact forall_prop_of_true hp
      · have hchosen : (s.step (.key input)).chosen = s.chosen := if_neg hp
        rw [hchosen]
        exact iff_of_true (fun hp' => absurd hp' hp) hs

/-- **Keys type what the layout says**, for every sequence of codes and launches, exactly
if at every press of a key that has two symbols the modes and the keys agree on which. -/
theorem typed_as_layout_iff (c : Console) (hok : c.kbd.Ok) (keys : Physical)
    (es : List TypingEvent) :
    (∀ pre post, es = pre ++ post →
      ∀ p ∈ (pre.foldl Typing.step ⟨c, keys, []⟩).chosen, p.1 = p.2) ↔
      Along (total Typing.step) Typing.Agrees ⟨c, keys, []⟩ es := by
  refine (along_total_pair (g := fun t _ => t) (J := fun (s : Typing) (_ : Unit) => s.console.kbd.Ok)
    (P := fun s _ => ∀ p ∈ s.chosen, p.1 = p.2) es (fun s _ e _ h => Typing.step_ok h e)
    (fun s _ e _ h hs => Typing.agrees_iff h hs e) (t := ()) hok ?_).symm
  exact List.forall_mem_nil _

/-- A driver just set up, no key held: Shift and `a`, then `1`, then Caps Lock and `b`. -/
theorem typed_as_layout_keys :
    let es : List TypingEvent := [.key 0x2A, .key 0x1E, .key 0xAA, .key 0x02, .key 0x3A, .key 0x30]
    Keyboard.boot.Ok ∧ ∀ pre post, es = pre ++ post → ∀ p ∈ (pre.foldl Typing.step
      ⟨Console.home (fun _ => 0) 0 Keyboard.boot, ⟨false, false, false⟩, []⟩).chosen, p.1 = p.2 :=
  ⟨Keyboard.boot_ok, (typed_as_layout_iff (Console.home (fun _ => 0) 0 Keyboard.boot)
    Keyboard.boot_ok ⟨false, false, false⟩ _).mpr (by decide +kernel)⟩

/-- Both Shifts pressed and one released, then `a`; Shift and Caps Lock, then `1`; Caps
Lock, a launch, then `a`.  The driver chooses `a`, `1` and `a` where the layout has `A`,
`!` and `A`. -/
theorem modifiers_lost :
    let start : Typing := ⟨Console.home (fun _ => 0) 0 Keyboard.boot, ⟨false, false, false⟩, []⟩
    ([TypingEvent.key 0x2A, .key 0x36, .key 0xB6, .key 0x1E].foldl Typing.step start).chosen =
        [(97, 65)] ∧
      ([TypingEvent.key 0x2A, .key 0x3A, .key 0x02].foldl Typing.step start).chosen = [(49, 33)] ∧
      ([TypingEvent.key 0x3A, .terminalOpen, .key 0x1E].foldl Typing.step start).chosen =
        [(97, 65)] := by
  decide +kernel

/-! ### A condition on the keys alone -/

/-- The modes are those of the keys. -/
def Typing.Tracks (s : Typing) : Prop :=
  s.console.kbd.editor.shift = s.keys.held ∧ s.console.kbd.editor.caps = s.keys.capsOdd

/-- A Shift key is released with the other one up, programs are launched with nothing on,
and a key other than a letter, if it has two symbols, is not pressed with both Shift and
Caps Lock on. -/
def Typing.Clean (s : Typing) : TypingEvent → Prop
  | .key input =>
      (input = lshiftReleased → s.keys.right = false) ∧
        (input = rshiftReleased → s.keys.left = false) ∧
        (IsPress input → keyArray 0 input ≠ keyArray 1 input → ¬ IsLetter input →
          (s.keys.held && s.keys.capsOdd) = false)
  | .terminalOpen => s.keys.held = false ∧ s.keys.capsOdd = false

theorem Typing.Tracks.agrees {s : Typing} (h : s.Tracks) {e : TypingEvent} (hc : s.Clean e) :
    s.Agrees e := by
  cases e with
  | terminalOpen => exact trivial
  | key input =>
      intro hp hne
      rw [Keyboard.shifted, Physical.shifted, h.1, h.2]
      split_ifs with hletter
      · rfl
      · have hboth := hc.2.2 hp hne hletter
        revert hboth
        generalize s.keys.held = a
        generalize s.keys.capsOdd = b
        revert a b
        decide

/-- One variable is enough for two Shift keys as long as the other one is up when one is
released. -/
theorem press_held {e : Editor} {p : Physical} (h : e.shift = p.held) {input : UInt8}
    (hleft : input = lshiftReleased → p.right = false)
    (hright : input = rshiftReleased → p.left = false) :
    (e.press input).shift = (p.press input).held := by
  show (if input = rshiftPressed ∨ input = lshiftPressed then true
      else if input = rshiftReleased ∨ input = lshiftReleased then false else e.shift) =
    ((if input = lshiftPressed then true else if input = lshiftReleased then false else p.left) ||
      (if input = rshiftPressed then true else if input = rshiftReleased then false else p.right))
  by_cases hlp : input = lshiftPressed
  · rw [if_pos (.inr hlp), if_pos hlp, Bool.true_or]
  by_cases hrp : input = rshiftPressed
  · rw [if_pos (.inl hrp), if_pos hrp, Bool.or_true]
  rw [if_neg (not_or.mpr ⟨hrp, hlp⟩), if_neg hlp, if_neg hrp]
  -- a release clears the one variable, so the other key has to be up
  by_cases hlr : input = lshiftReleased
  · have hrr : input ≠ rshiftReleased := by
      rw [hlr]
      decide
    rw [if_pos (.inr hlr), if_pos hlr, if_neg hrr, hleft hlr]
    rfl
  by_cases hrr : input = rshiftReleased
  · rw [if_pos (.inl hrr), if_neg hlr, if_pos hrr, hright hrr]
    rfl
  rw [if_neg (not_or.mpr ⟨hrr, hlr⟩), if_neg hlr, if_neg hrr]
  exact h

theorem Typing.Tracks.step {s : Typing} (hok : s.console.kbd.Ok) (h : s.Tracks) {e : TypingEvent}
    (hc : s.Clean e) : (s.step e).Tracks := by
  cases e with
  | terminalOpen =>
      obtain ⟨hheld, hcaps⟩ := hc
      exact ⟨hheld.symm, hcaps.symm⟩
  | key input =>
      obtain ⟨hleft, hright, -⟩ := hc
      have hedit := editor_keyHandler_modes hok input
      have hshift := press_held h.1 hleft hright
      constructor
      · show (s.console.keyHandler input).kbd.editor.shift = (s.keys.press input).held
        rw [hedit]
        exact hshift
      · show (s.console.keyHandler input).kbd.editor.caps = (s.keys.press input).capsOdd
        rw [hedit]
        show (if input = capsPressed then !s.console.kbd.editor.caps else s.console.kbd.editor.caps) = _
        rw [h.2]
        rfl

/-- **Keys type what the layout says** if they are used in this way. -/
theorem typed_as_layout_of_clean (c : Console) (hok : c.kbd.Ok) (keys : Physical)
    (hstart : Typing.Tracks ⟨c, keys, []⟩) {es : List TypingEvent}
    (hclean : Along (total Typing.step) Typing.Clean ⟨c, keys, []⟩ es) :
    ∀ p ∈ (es.foldl Typing.step ⟨c, keys, []⟩).chosen, p.1 = p.2 := by
  have hinv := foldl_invariant
    (I := fun s : Typing => s.console.kbd.Ok ∧ s.Tracks ∧ ∀ p ∈ s.chosen, p.1 = p.2) ?_
    ⟨hok, hstart, List.forall_mem_nil _⟩ hclean
  · exact hinv.2.2
  · rintro s e ⟨hok, htracks, hs⟩ hc
    exact ⟨Typing.step_ok hok e, htracks.step hok hc, (Typing.agrees_iff hok hs e).mp (htracks.agrees hc)⟩

end LinuxBasedOs
