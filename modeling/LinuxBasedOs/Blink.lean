/-
LinuxBasedOs/Blink.lean

The blink list of the user program `fish` (fish.c, blink.S).

The program keeps the structures it blinks in a fixed array.  There is no free list:
`mp1_malloc` takes the first structure whose location is 0, and `mp1_free` clears a
structure.  The structures in use are linked by their own `next` fields.  So a structure
that the user adds at location 0, the first cell of the screen, is in use and looks free;
the next `RTC_ADD` gets the same structure again and links it to itself.

Two results over whole runs of calls and ticks:

* `sound_iff` — the list is finite and without repetition, the allocator hands out no
  structure that is on it and the loops over it end, exactly if no structure is added at
  location 0 (as long as one is free);
* `shown_iff` — every structure's cell shows its on or off character as its status says,
  exactly if no `RTC_SYNC` copies the status *on* to a structure with two different
  characters: `cmovl` behind `testb` never moves, so that the off character is drawn.
-/
import LinuxBasedOs.Bytes
import LinuxBasedOs.Chain
import LinuxBasedOs.Run

namespace LinuxBasedOs.Blink

open Bytes Chain Transition

/-! ### The structures -/

/-- An element of `blink_array`. -/
abbrev Slot := Fin (80 * 25)

/-- `struct mp1_blink_struct`; a pointer is NULL or points to an element of the array. -/
structure BlinkStruct where
  location : UInt16
  onChar : UInt8
  offChar : UInt8
  onLength : UInt16
  offLength : UInt16
  countdown : UInt16
  status : UInt16
  next : Option Slot
  deriving DecidableEq

/-- All bytes 0. -/
def BlinkStruct.zero : BlinkStruct := ⟨0, 0, 0, 0, 0, 0, 0, none⟩

/-- The memory of the module: its array of structures, the head of its list, and the screen. -/
structure Fish where
  blinkArray : Slot → BlinkStruct
  mp1ListHead : Option Slot
  vmem : Mem

namespace Fish

/-- The pointers: `mp1_list_head`, and the `NEXT` field of each structure. -/
def links (f : Fish) : Option Slot → Option Slot
  | none => f.mp1ListHead
  | some p => (f.blinkArray p).next

/-- Store a structure. -/
def set (f : Fish) (p : Slot) (b : BlinkStruct) : Fish :=
  { f with blinkArray := Function.update f.blinkArray p b }

/-- Store a pointer. -/
def setLink (f : Fish) (c v : Option Slot) : Fish :=
  match c with
  | none => { f with mp1ListHead := v }
  | some p => f.set p { f.blinkArray p with next := v }

/-- `mp1_poke`, with the offset in `%eax` and the byte in `%cl`. -/
def mp1Poke (f : Fish) (eax : Nat) (cl : UInt8) : Fish :=
  { f with vmem := Function.update f.vmem eax cl }

/-! ### The allocator -/

/-- `mp1_malloc`: the first structure whose location is 0. -/
def mp1Malloc (f : Fish) : Option Slot :=
  (List.finRange (80 * 25)).find? fun i => (f.blinkArray i).location = 0

/-- `mp1_free`: the structure is cleared, and its location is 0 then. -/
def mp1Free (f : Fish) (p : Slot) : Fish := f.set p .zero

/-! ### The calls -/

/-- `mp1_rtc_tasklet`'s loop body: the countdown is a signed word. -/
def blink (p : Slot) (f : Fish) : Fish :=
  let b := { f.blinkArray p with countdown := (f.blinkArray p).countdown - 1 }
  if 0 < b.countdown.toInt16.toInt then f.set p b
  else if b.status &&& 1 ≠ 0 then
    (f.set p { b with countdown := b.offLength, status := b.status ^^^ 1 }).mp1Poke
      (2 * b.location.toNat) b.offChar
  else
    (f.set p { b with countdown := b.onLength, status := b.status ^^^ 1 }).mp1Poke
      (2 * b.location.toNat) b.onChar

/-- The loop runs at most once for each element of the array, unless it never ends. -/
def mp1RtcTasklet (f : Fish) : Option Fish := traverse links blink (80 * 25) f.mp1ListHead f

/-- `mp1_find_helper`: the first structure of the list at a location; `none` if the loop does
not end. -/
def mp1FindHelper (f : Fish) (location : UInt16) : Option (Option Slot) :=
  search f.links (fun p => (f.blinkArray p).location = location) (80 * 25) f.mp1ListHead

/-- `RTC_ADD`: the structure is copied from the user, put in front of the list and drawn. -/
def mp1IoctlAdd (f : Fish) (user : BlinkStruct) : Int × Fish :=
  if 80 * 25 ≤ user.location.toNat then (-1, f)
  else
    let b := { user with status := 1, countdown := user.onLength }
    match f.mp1Malloc with
    | none => (-1, f)
    | some p =>
        let copied := f.set p b
        -- insert this new item at the front of the list
        let linked := (copied.setLink (some p) copied.mp1ListHead).setLink none (some p)
        (0, linked.mp1Poke (2 * (linked.blinkArray p).location.toNat) (linked.blinkArray p).onChar)

/-- The loop for the pointer to the structure starts at `mp1_list_head`. -/
def mp1IoctlRemove (f : Fish) (arg : UInt32) : Option (Int × Fish) :=
  (f.mp1FindHelper arg.toUInt16).bind fun
    | none => some (-1, f)
    | some p =>
        (prev f.links p (80 * 25) none).map fun c =>
          (0, (f.setLink c (f.blinkArray p).next).mp1Free p)

/-- `cmovl` moves if SF and OF differ; `testb` has cleared OF and taken SF from the result. -/
def cmovl (tested : UInt8) (source dest : UInt8) : UInt8 :=
  if decide (128 ≤ tested.toNat) ≠ false then source else dest

/-- `RTC_SYNC`: the structure at the low word of `arg` takes over the times and the status of
the one at the high word, and is drawn. -/
def mp1IoctlSync (f : Fish) (arg : UInt32) : Option (Int × Fish) :=
  (f.mp1FindHelper (arg >>> 16).toUInt16).bind fun
    | none => some (-1, f)
    | some esi =>
        (f.mp1FindHelper arg.toUInt16).bind fun
          | none => some (-1, f)
          | some edi =>
              -- esi and edi may be the same structure, which then keeps what it holds
              let source := f.blinkArray esi
              let b := { f.blinkArray edi with
                onLength := source.onLength
                offLength := source.offLength
                countdown := source.countdown
                status := source.status }
              some (0, (f.set edi b).mp1Poke (2 * b.location.toNat)
                (cmovl (b.status.toUInt8 &&& 1) b.onChar b.offChar))

/-- The structure that is copied to the user, if there is one at the location. -/
def mp1IoctlFind (f : Fish) (location : UInt16) : Option (Int × Option BlinkStruct) :=
  (f.mp1FindHelper location).map fun
    | none => (-1, none)
    | some p => (0, some (f.blinkArray p))

end Fish

open Fish

/-- The calls of `mp1_ioctl`, and a tick of the clock, which runs the tasklet. -/
inductive Event where
  | add (user : BlinkStruct)
  | remove (arg : UInt32)
  | find (location : UInt16)
  | sync (arg : UInt32)
  | tick

/-- What a call returns, and what `RTC_FIND` copies to its caller. -/
structure Reply where
  ret : Int
  found : Option BlinkStruct

/-- A call of `mp1_ioctl` or of the tasklet; `none` if it does not return. -/
def step (f : Fish) : Event → Option (Reply × Fish)
  | .add user => some (⟨(f.mp1IoctlAdd user).1, none⟩, (f.mp1IoctlAdd user).2)
  | .remove arg => (f.mp1IoctlRemove arg).map fun r => (⟨r.1, none⟩, r.2)
  | .find location => (f.mp1IoctlFind location).map fun r => (⟨r.1, r.2⟩, f)
  | .sync arg => (f.mp1IoctlSync arg).map fun r => (⟨r.1, none⟩, r.2)
  | .tick => f.mp1RtcTasklet.map fun f' => (⟨0, none⟩, f')

/-! ### Pointers and stores -/

@[simp] theorem links_mp1Poke (f : Fish) (eax : Nat) (cl : UInt8) :
    (f.mp1Poke eax cl).links = f.links := by
  funext c
  cases c <;> rfl

@[simp] theorem blinkArray_mp1Poke (f : Fish) (eax : Nat) (cl : UInt8) :
    (f.mp1Poke eax cl).blinkArray = f.blinkArray := rfl

theorem links_set (f : Fish) (p : Slot) (b : BlinkStruct) :
    (f.set p b).links = Function.update f.links (some p) b.next := by
  funext c
  cases c with
  | none => exact (Function.update_of_ne (Option.some_ne_none p).symm _ _).symm
  | some q =>
      by_cases hq : q = p
      · subst hq
        simp [links, Fish.set]
      · rw [Function.update_of_ne (fun h => hq (Option.some.inj h))]
        simp [links, Fish.set, hq]

/-- A store that does not touch the pointer. -/
theorem links_set_of_next {f : Fish} {p : Slot} {b : BlinkStruct}
    (h : b.next = (f.blinkArray p).next) : (f.set p b).links = f.links := by
  rw [links_set, h]
  exact Function.update_eq_self (some p) f.links

theorem links_setLink (f : Fish) (c v : Option Slot) :
    (f.setLink c v).links = Function.update f.links c v := by
  cases c with
  | none =>
      funext c
      cases c with
      | none => rw [Function.update_self]; rfl
      | some q => rw [Function.update_of_ne (Option.some_ne_none q)]; rfl
  | some p => exact links_set f p _

/-- A store of a pointer leaves everything else. -/
theorem blinkArray_setLink (f : Fish) (c v : Option Slot) (q : Slot) :
    ∃ n, (f.setLink c v).blinkArray q = { f.blinkArray q with next := n } := by
  cases c with
  | none => exact ⟨(f.blinkArray q).next, rfl⟩
  | some p =>
      by_cases hq : q = p
      · subst hq
        exact ⟨v, Function.update_self ..⟩
      · exact ⟨(f.blinkArray q).next, Function.update_of_ne hq _ _⟩

theorem vmem_setLink (f : Fish) (c v : Option Slot) : (f.setLink c v).vmem = f.vmem := by
  cases c <;> rfl

/-- A store that does not move the structure. -/
theorem location_set {f : Fish} {p : Slot} {b : BlinkStruct}
    (h : b.location = (f.blinkArray p).location) (q : Slot) :
    ((f.set p b).blinkArray q).location = (f.blinkArray q).location := by
  by_cases hq : q = p
  · subst hq
    simp [Fish.set, h]
  · simp [Fish.set, hq]

/-! ### What the calls do to a list that ends -/

/-- The character that the status asks for. -/
def BlinkStruct.face (b : BlinkStruct) : UInt8 := if b.status &&& 1 ≠ 0 then b.onChar else b.offChar

theorem flip_status (status : UInt16) : (status ^^^ 1) &&& 1 ≠ 0 ↔ status &&& 1 = 0 := by
  have h₁ : ((status ^^^ 1) &&& 1).toNat = status.toNat % 2 ^^^ 1 := by
    rw [UInt16.toNat_and, UInt16.toNat_xor]
    exact (Nat.and_one_is_mod _).trans (Nat.xor_mod_two_pow (n := 1))
  have h₂ : (status &&& 1).toNat = status.toNat % 2 := by
    rw [UInt16.toNat_and]
    exact Nat.and_one_is_mod _
  rw [ne_eq, ← UInt16.toNat_inj, ← UInt16.toNat_inj, h₁, h₂]
  rcases Nat.mod_two_eq_zero_or_one status.toNat with h | h
  · rw [h]
    decide
  · rw [h]
    decide

/-- What a tick does to one structure: it counts down, or it flips the status and draws the
character that the new status asks for. -/
theorem blink_cases (p : Slot) (f : Fish) :
    ∃ b, b.location = (f.blinkArray p).location ∧ b.next = (f.blinkArray p).next ∧
      (b.face = (f.blinkArray p).face ∧ blink p f = f.set p b ∨
        blink p f = (f.set p b).mp1Poke (2 * b.location.toNat) b.face) := by
  simp only [blink]
  split_ifs with hcount hstatus
  · exact ⟨{ f.blinkArray p with countdown := (f.blinkArray p).countdown - 1 }, rfl, rfl,
      .inl ⟨rfl, rfl⟩⟩
  · refine ⟨{ f.blinkArray p with
      countdown := (f.blinkArray p).offLength, status := (f.blinkArray p).status ^^^ 1 },
      rfl, rfl, .inr ?_⟩
    rw [BlinkStruct.face, if_neg (mt (flip_status _).mp hstatus)]
  · refine ⟨{ f.blinkArray p with
      countdown := (f.blinkArray p).onLength, status := (f.blinkArray p).status ^^^ 1 },
      rfl, rfl, .inr ?_⟩
    rw [BlinkStruct.face, if_pos ((flip_status _).mpr (not_not.mp hstatus))]

theorem location_of_mp1Malloc {f : Fish} {p : Slot} (h : f.mp1Malloc = some p) :
    (f.blinkArray p).location = 0 := by
  simpa using List.find?_some h

/-- The state after a structure has been put into element `p`. -/
def added (f : Fish) (user : BlinkStruct) (p : Slot) : Fish where
  blinkArray := Function.update f.blinkArray p
    { user with status := 1, countdown := user.onLength, next := f.mp1ListHead }
  mp1ListHead := some p
  vmem := Function.update f.vmem (2 * user.location.toNat) user.onChar

theorem mp1IoctlAdd_eq (f : Fish) (user : BlinkStruct) :
    f.mp1IoctlAdd user =
      if 80 * 25 ≤ user.location.toNat then (-1, f)
      else match f.mp1Malloc with
        | none => (-1, f)
        | some p => (0, added f user p) := by
  rw [mp1IoctlAdd]
  split_ifs with hlocation
  · rfl
  · cases f.mp1Malloc with
    | none => rfl
    | some p => simp [setLink, Fish.set, mp1Poke, added]

theorem links_added (f : Fish) (user : BlinkStruct) (p : Slot) :
    (added f user p).links =
      Function.update (Function.update f.links (some p) (f.links none)) none (some p) := by
  have hstores : added f user p =
      ((f.set p { user with status := 1, countdown := user.onLength, next := f.mp1ListHead }).setLink
        none (some p)).mp1Poke (2 * user.location.toNat) user.onChar := rfl
  rw [hstores, links_mp1Poke, links_setLink, links_set]
  rfl

section Calls

variable {f : Fish} {l : List Slot}

theorem length_le (h : Leads f.links none l) : l.length ≤ 80 * 25 := by
  have hle := h.length_le
  rwa [Fintype.card_fin] at hle

theorem mp1FindHelper_eq (h : Leads f.links none l) (location : UInt16) :
    f.mp1FindHelper location = some (l.find? fun p => (f.blinkArray p).location = location) :=
  h.search_eq (length_le h)

theorem links_blink (p : Slot) (f : Fish) : (blink p f).links = f.links := by
  obtain ⟨b, -, hnext, ⟨-, hset⟩ | hpoke⟩ := blink_cases p f
  · rw [hset, links_set_of_next hnext]
  · rw [hpoke, links_mp1Poke, links_set_of_next hnext]

theorem mp1RtcTasklet_eq (h : Leads f.links none l) :
    f.mp1RtcTasklet = some (l.foldl (fun t p => blink p t) f) :=
  h.traverse_eq links_blink (length_le h)

theorem location_blink (p : Slot) (f : Fish) (q : Slot) :
    ((blink p f).blinkArray q).location = (f.blinkArray q).location := by
  obtain ⟨b, hlocation, -, ⟨-, hset⟩ | hpoke⟩ := blink_cases p f
  · rw [hset]
    exact location_set hlocation q
  · rw [hpoke, blinkArray_mp1Poke]
    exact location_set hlocation q

theorem location_blinked (ps : List Slot) (f : Fish) (q : Slot) :
    ((ps.foldl (fun t p => blink p t) f).blinkArray q).location = (f.blinkArray q).location := by
  induction ps generalizing f with
  | nil => rfl
  | cons p ps ih => exact (ih (blink p f)).trans (location_blink p f q)

theorem links_blinked (ps : List Slot) (f : Fish) :
    (ps.foldl (fun t p => blink p t) f).links = f.links := by
  induction ps generalizing f with
  | nil => rfl
  | cons p ps ih => exact (ih (blink p f)).trans (links_blink p f)

/-- The structure `p` is off the list, and the others are as before. -/
structure Removed (f : Fish) (l : List Slot) (p : Slot) (t : Fish) : Prop where
  leads : Leads t.links none (l.erase p)
  vmem : t.vmem = f.vmem
  others : ∀ q ∈ l.erase p, ∃ n, t.blinkArray q = { f.blinkArray q with next := n }

theorem Removed.location {t : Fish} {p : Slot} (h : Removed f l p t) :
    ∀ q ∈ l.erase p, (t.blinkArray q).location = (f.blinkArray q).location := by
  intro q hq
  obtain ⟨n, hn⟩ := h.others q hq
  rw [hn]

/-- `RTC_REMOVE` of a structure that is found. -/
theorem mp1IoctlRemove_eq (h : Leads f.links none l) {arg : UInt32} {p : Slot}
    (hfind : l.find? (fun p => (f.blinkArray p).location = arg.toUInt16) = some p) :
    ∃ t, f.mp1IoctlRemove arg = some (0, t) ∧ Removed f l p t := by
  have hp : p ∈ l := List.mem_of_find?_eq_some hfind
  have hgone : ∀ q ∈ l.erase p, q ≠ p := fun q hq heq => h.nodup.not_mem_erase (heq ▸ hq)
  obtain ⟨c, hc, -, hleads⟩ := h.prev_eq (fun b _ => (Option.some_ne_none b).symm) hp (length_le h)
  refine ⟨(f.setLink c (f.blinkArray p).next).mp1Free p, ?_, ?_, vmem_setLink f c _, fun q hq => ?_⟩
  · simp only [mp1IoctlRemove, mp1FindHelper_eq h, hfind, Option.bind_some, hc, Option.map_some]
  · -- the structure that is cleared is no longer on the list
    rw [mp1Free, links_set, links_setLink]
    refine Leads.congr hleads (Function.update_of_ne (Option.some_ne_none p).symm _ _) fun q hq => ?_
    exact Function.update_of_ne (fun heq => hgone q hq (Option.some.inj heq)) _ _
  · obtain ⟨n, hn⟩ := blinkArray_setLink f c (f.blinkArray p).next q
    exact ⟨n, by rw [mp1Free, Fish.set, ← hn]; exact Function.update_of_ne (hgone q hq) _ _⟩

theorem mp1IoctlRemove_none (h : Leads f.links none l) {arg : UInt32}
    (hfind : l.find? (fun p => (f.blinkArray p).location = arg.toUInt16) = none) :
    f.mp1IoctlRemove arg = some (-1, f) := by
  rw [mp1IoctlRemove, mp1FindHelper_eq h, hfind]
  rfl

/-- Both locations of a `RTC_SYNC` are found. -/
structure Syncs (f : Fish) (arg : UInt32) (esi edi : Slot) : Prop where
  source : f.mp1FindHelper (arg >>> 16).toUInt16 = some (some esi)
  target : f.mp1FindHelper arg.toUInt16 = some (some edi)

/-- The structure with the times and the status of another one. -/
def synced (f : Fish) (esi edi : Slot) : BlinkStruct :=
  { f.blinkArray edi with
    onLength := (f.blinkArray esi).onLength
    offLength := (f.blinkArray esi).offLength
    countdown := (f.blinkArray esi).countdown
    status := (f.blinkArray esi).status }

/-- The state after a `RTC_SYNC`: the off character is drawn. -/
def syncedState (f : Fish) (esi edi : Slot) : Fish :=
  (f.set edi (synced f esi edi)).mp1Poke (2 * (f.blinkArray edi).location.toNat)
    (f.blinkArray edi).offChar

/-- The result of a test of bit 0 is never negative. -/
theorem cmovl_test (status : UInt16) (source dest : UInt8) :
    cmovl (status.toUInt8 &&& 1) source dest = dest := by
  have hbit : (status.toUInt8 &&& 1).toNat ≤ 1 := by
    rw [UInt8.toNat_and]
    exact Nat.and_le_right
  rw [cmovl, decide_eq_false (by omega), if_neg (not_not.mpr rfl)]

theorem mp1IoctlSync_eq {arg : UInt32} {esi edi : Slot} (h : Syncs f arg esi edi) :
    f.mp1IoctlSync arg = some (0, syncedState f esi edi) := by
  rw [mp1IoctlSync, h.source, Option.bind_some]
  simp only [h.target, Option.bind_some, cmovl_test]
  rfl

theorem mp1IoctlSync_none (h : Leads f.links none l) {arg : UInt32}
    (hfind : ∀ esi edi, ¬ Syncs f arg esi edi) : f.mp1IoctlSync arg = some (-1, f) := by
  rw [mp1IoctlSync]
  cases hsource : f.mp1FindHelper (arg >>> 16).toUInt16 with
  | none => cases (mp1FindHelper_eq h _).symm.trans hsource
  | some esi =>
      cases esi with
      | none => rfl
      | some esi =>
          rw [Option.bind_some]
          cases htarget : f.mp1FindHelper arg.toUInt16 with
          | none => cases (mp1FindHelper_eq h _).symm.trans htarget
          | some edi =>
              cases edi with
              | none => rfl
              | some edi => exact absurd ⟨hsource, htarget⟩ (hfind esi edi)

theorem links_syncedState (f : Fish) (esi edi : Slot) :
    (syncedState f esi edi).links = f.links := by
  have hnext : (synced f esi edi).next = (f.blinkArray edi).next := rfl
  rw [syncedState, links_mp1Poke, links_set_of_next hnext]

theorem location_syncedState (f : Fish) (esi edi q : Slot) :
    ((syncedState f esi edi).blinkArray q).location = (f.blinkArray q).location := by
  have hlocation : (synced f esi edi).location = (f.blinkArray edi).location := rfl
  exact location_set hlocation q

theorem mem_of_mp1FindHelper (h : Leads f.links none l) {location : UInt16} {p : Slot}
    (hp : f.mp1FindHelper location = some (some p)) : p ∈ l := by
  rw [mp1FindHelper_eq h] at hp
  exact List.mem_of_find?_eq_some (Option.some.inj hp)

/-- What a call or a tick can do to a list that ends. -/
inductive Stepped (f : Fish) (l : List Slot) : Event → Fish → Prop
  | refused {user : BlinkStruct} (h : user.location ≠ 0 ∨ f.mp1Malloc = none) :
      Stepped f l (.add user) f
  | added {user : BlinkStruct} {p : Slot} (h : f.mp1Malloc = some p) :
      Stepped f l (.add user) (added f user p)
  | missed (arg : UInt32) : Stepped f l (.remove arg) f
  | removed (arg : UInt32) {p : Slot} {t : Fish} (h : Removed f l p t) : Stepped f l (.remove arg) t
  | found (location : UInt16) : Stepped f l (.find location) f
  | unsynced {arg : UInt32} (h : ∀ esi edi, ¬ Syncs f arg esi edi) : Stepped f l (.sync arg) f
  | synced {arg : UInt32} {esi edi : Slot} (h : Syncs f arg esi edi) :
      Stepped f l (.sync arg) (syncedState f esi edi)
  | ticked : Stepped f l .tick (l.foldl (fun t p => blink p t) f)

/-- Every call returns. -/
theorem step_cases (h : Leads f.links none l) (e : Event) :
    ∃ o t, step f e = some (o, t) ∧ Stepped f l e t := by
  cases e with
  | add user =>
      refine ⟨_, _, rfl, ?_⟩
      rw [mp1IoctlAdd_eq]
      split_ifs with hlarge
      · -- a location beyond the screen is not 0
        refine .refused (.inl fun h0 => ?_)
        rw [h0] at hlarge
        exact absurd hlarge (by decide)
      · cases hmalloc : f.mp1Malloc with
        | none => exact .refused (.inr hmalloc)
        | some p => exact .added hmalloc
  | remove arg =>
      -- the list ends, so that the search has an answer
      cases hfind : l.find? (fun p => (f.blinkArray p).location = arg.toUInt16) with
      | none =>
          rw [step, mp1IoctlRemove_none h hfind]
          exact ⟨_, f, rfl, .missed arg⟩
      | some p =>
          obtain ⟨t, hremove, ht⟩ := mp1IoctlRemove_eq h hfind
          rw [step, hremove]
          exact ⟨_, t, rfl, .removed arg ht⟩
  | find location =>
      rw [step, mp1IoctlFind, mp1FindHelper_eq h]
      cases l.find? fun p => (f.blinkArray p).location = location with
      | none => exact ⟨_, f, rfl, .found location⟩
      | some p => exact ⟨_, f, rfl, .found location⟩
  | sync arg =>
      by_cases hfind : ∃ esi edi, Syncs f arg esi edi
      · obtain ⟨esi, edi, hsyncs⟩ := hfind
        rw [step, mp1IoctlSync_eq hsyncs]
        exact ⟨_, _, rfl, .synced hsyncs⟩
      · have hnone : ∀ esi edi, ¬ Syncs f arg esi edi := fun esi edi hs => hfind ⟨esi, edi, hs⟩
        rw [step, mp1IoctlSync_none h hnone]
        exact ⟨_, f, rfl, .unsynced hnone⟩
  | tick =>
      rw [step, mp1RtcTasklet_eq h]
      exact ⟨_, _, rfl, .ticked⟩

end Calls

/-! ### The list and the allocator -/

/-- The list ends, visits each structure once and is left alone by the allocator; and the
loops over it end. -/
structure Sound (f : Fish) : Prop where
  distinct : ∃ l, Leads f.links none l ∧ l.Nodup
  malloc : ∀ l p, Leads f.links none l → f.mp1Malloc = some p → p ∉ l
  tasklet : ∃ rounds t, traverse links blink rounds f.mp1ListHead f = some t
  find : ∀ location, ∃ rounds r,
    search f.links (fun p => (f.blinkArray p).location = location) rounds f.mp1ListHead = some r

/-- The list, with no structure on it that looks free. -/
structure Listed (f : Fish) (l : List Slot) : Prop where
  leads : Leads f.links none l
  used : ∀ p ∈ l, (f.blinkArray p).location ≠ 0

theorem Listed.not_mem {f : Fish} {l : List Slot} (h : Listed f l) {p : Slot}
    (hp : f.mp1Malloc = some p) : p ∉ l :=
  fun hmem => h.used p hmem (location_of_mp1Malloc hp)

theorem Listed.sound {f : Fish} {l : List Slot} (h : Listed f l) : Sound f where
  distinct := ⟨l, h.leads, h.leads.nodup⟩
  malloc _ _ hl hp := h.leads.unique hl ▸ h.not_mem hp
  tasklet := ⟨80 * 25, _, mp1RtcTasklet_eq h.leads⟩
  find location := ⟨80 * 25, _, mp1FindHelper_eq h.leads location⟩

theorem Listed.added {f : Fish} {l : List Slot} (h : Listed f l) {user : BlinkStruct} {p : Slot}
    (hp : f.mp1Malloc = some p) (hlocation : user.location ≠ 0) :
    Listed (added f user p) (p :: l) := by
  have hnew := h.not_mem hp
  refine ⟨by rw [links_added]; exact h.leads.push hnew, fun q hq => ?_⟩
  rcases List.mem_cons.mp hq with rfl | hq
  · simpa [Blink.added] using hlocation
  · have hqp : q ≠ p := fun heq => hnew (heq ▸ hq)
    simpa [Blink.added, hqp] using h.used q hq

/-- A structure at location 0 is handed out again. -/
theorem Listed.not_sound_added {f : Fish} {l : List Slot} (h : Listed f l) {user : BlinkStruct}
    {p : Slot} (hp : f.mp1Malloc = some p) (hlocation : user.location = 0) :
    ¬ Sound (Blink.added f user p) := by
  intro hsound
  have hagain : (Blink.added f user p).mp1Malloc = some p := by
    -- the allocator looks at nothing but the locations, and they are as before
    have hsame : ∀ q,
        ((Blink.added f user p).blinkArray q).location = (f.blinkArray q).location := by
      intro q
      by_cases hq : q = p
      · subst hq
        simp [Blink.added, hlocation, location_of_mp1Malloc hp]
      · simp [Blink.added, hq]
    simp only [mp1Malloc, hsame]
    exact hp
  have hleads : Leads (Blink.added f user p).links none (p :: l) := by
    rw [links_added]
    exact h.leads.push (h.not_mem hp)
  exact hsound.malloc _ p hleads hagain List.mem_cons_self

/-- A list of structures that have been on the list before. -/
theorem Listed.of_step {f t : Fish} {l l' : List Slot} (h : Listed f l)
    (hleads : Leads t.links none l') (hsub : l' ⊆ l)
    (hlocation : ∀ p ∈ l', (t.blinkArray p).location = (f.blinkArray p).location) :
    Listed t l' :=
  ⟨hleads, fun p hp => by rw [hlocation p hp]; exact h.used p (hsub hp)⟩

theorem Listed.blinked {f : Fish} {l : List Slot} (h : Listed f l) (ps : List Slot) :
    Listed (ps.foldl (fun t p => blink p t) f) l :=
  h.of_step (by rw [links_blinked]; exact h.leads) (List.Subset.refl l)
    fun q _ => location_blinked ps f q

/-- The calls that keep the list sound: no structure is added at location 0, as long as
there is room for one. -/
def Keeps (f : Fish) : Event → Prop
  | .add user => user.location ≠ 0 ∨ f.mp1Malloc = none
  | _ => True

/-- **One call** on a sound list. -/
theorem Listed.step {f : Fish} {l : List Slot} (h : Listed f l) (e : Event) :
    ∃ o t, Blink.step f e = some (o, t) ∧ (Keeps f e → ∃ l', Listed t l') ∧
      (Sound t → Keeps f e) := by
  obtain ⟨o, t, ht, hstepped⟩ := step_cases h.leads e
  refine ⟨o, t, ht, ?_⟩
  cases hstepped with
  | refused hrefused => exact ⟨fun _ => ⟨l, h⟩, fun _ => hrefused⟩
  | @added user p hmalloc =>
      have hroom : f.mp1Malloc ≠ none := by rw [hmalloc]; exact Option.some_ne_none p
      refine ⟨fun hkeeps => ⟨p :: l, h.added hmalloc (hkeeps.resolve_right hroom)⟩, fun hsound => ?_⟩
      exact .inl fun h0 => h.not_sound_added hmalloc h0 hsound
  | missed arg => exact ⟨fun _ => ⟨l, h⟩, fun _ => trivial⟩
  | @removed arg p t hremoved =>
      exact ⟨fun _ => ⟨l.erase p, h.of_step hremoved.leads List.erase_subset hremoved.location⟩,
        fun _ => trivial⟩
  | found location => exact ⟨fun _ => ⟨l, h⟩, fun _ => trivial⟩
  | unsynced hnone => exact ⟨fun _ => ⟨l, h⟩, fun _ => trivial⟩
  | @synced arg esi edi hsyncs =>
      refine ⟨fun _ => ⟨l, h.of_step ?_ (List.Subset.refl l) fun q _ => ?_⟩, fun _ => trivial⟩
      · rw [links_syncedState]
        exact h.leads
      · exact location_syncedState f esi edi q
  | ticked => exact ⟨fun _ => ⟨l, h.blinked l⟩, fun _ => trivial⟩

/-- **The list stays sound exactly if** no structure is added at location 0 while there is
room for it: for every sequence of calls and ticks from an empty list, whatever the array
and the screen hold. -/
theorem sound_iff (f : Fish) (hempty : f.mp1ListHead = none) (events : List Event) :
    (∀ pre post, events = pre ++ post → ∃ os t, run step f pre = some (os, t) ∧ Sound t) ↔
      Along step Keeps f events := by
  have hinitial : Listed f [] := ⟨hempty, fun p hp => absurd hp List.not_mem_nil⟩
  refine (along_iff (J := fun f _ => ∃ l, Listed f l) ?_ ?_ ⟨[], hinitial⟩).symm
  · rintro s - ⟨l, h⟩
    exact h.sound
  · rintro s e - ⟨l, h⟩
    exact h.step e

/-- The program at its start. -/
def cleared : Fish := ⟨fun _ => .zero, none, fun _ => 32⟩

/-- A structure of the program, at some location. -/
def blinker (location : UInt16) : BlinkStruct := ⟨location, 73, 77, 7, 6, 0, 0, none⟩

instance (f : Fish) : (e : Event) → Decidable (Keeps f e)
  | .add user => inferInstanceAs (Decidable (user.location ≠ 0 ∨ f.mp1Malloc = none))
  | .remove _ | .find _ | .sync _ | .tick => .isTrue trivial

/-- The same location twice, and the last one. -/
theorem sound_repeated :
    let events := [.add (blinker 5), .add (blinker 5), .add (blinker 1999), .tick, .remove 5]
    cleared.mp1ListHead = none ∧
      ∀ pre post, events = pre ++ post → ∃ os t, run step cleared pre = some (os, t) ∧ Sound t := by
  refine ⟨rfl, (sound_iff cleared rfl _).mpr ?_⟩
  decide +kernel

/-- A structure at location 0 and another one: the first is handed out again and points to
itself, and the tasklet's loop does not end. -/
theorem add_origin :
    let events := [.add (blinker 0), .add (blinker 5)]
    (∃ os t, run step cleared events = some (os, t) ∧ t.mp1ListHead = some 0 ∧
      (t.blinkArray 0).next = some 0 ∧
      ∀ rounds, traverse links blink rounds t.mp1ListHead t = none) ∧
    ¬ ∀ pre post, events = pre ++ post → ∃ os t, run step cleared pre = some (os, t) ∧ Sound t := by
  have heval : (run step cleared [.add (blinker 0), .add (blinker 5)]).map
      (fun r => (r.2.mp1ListHead, (r.2.blinkArray 0).next)) = some (some 0, some 0) := by
    decide +kernel
  obtain ⟨⟨os, t⟩, hrun, hpointers⟩ := Option.map_eq_some_iff.mp heval
  obtain ⟨hhead, hnext⟩ := Prod.mk.inj hpointers
  have hcycle : ∀ l, ¬ Leads t.links none l := by
    -- every list would begin with the structure that points to itself
    intro l hl
    cases l with
    | nil => cases hhead.symm.trans hl
    | cons p l =>
        obtain rfl : 0 = p := Option.some.inj (hhead.symm.trans hl.1)
        exact not_leads_of_loop hnext l hl.2
  refine ⟨⟨os, t, hrun, hhead, hnext, fun rounds => ?_⟩, fun h => ?_⟩
  · by_contra hends
    obtain ⟨u, hu⟩ := Option.ne_none_iff_exists'.mp hends
    obtain ⟨l, hl⟩ := leads_of_traverse links_blink (c := none) hu
    exact hcycle l hl
  · obtain ⟨os', t', hrun', hsound⟩ := h _ [] (List.append_nil _).symm
    obtain ⟨-, rfl⟩ := Prod.mk.inj (Option.some.inj (hrun.symm.trans hrun'))
    obtain ⟨l, hl, -⟩ := hsound.distinct
    exact hcycle l hl

/-! ### The screen -/

/-- Every structure on the list is shown as its status says. -/
def Shows (f : Fish) : Prop :=
  ∃ l, Leads f.links none l ∧ ∀ p ∈ l,
    f.vmem (2 * (f.blinkArray p).location.toNat) =
      if (f.blinkArray p).status &&& 1 ≠ 0 then (f.blinkArray p).onChar
      else (f.blinkArray p).offChar

/-- The list, with each structure at a location of its own, and shown. -/
structure Shown (f : Fish) (l : List Slot) : Prop extends Listed f l where
  apart : ∀ p ∈ l, ∀ q ∈ l, (f.blinkArray p).location = (f.blinkArray q).location → p = q
  face : ∀ p ∈ l, f.vmem (2 * (f.blinkArray p).location.toNat) = (f.blinkArray p).face

section Screen

variable {f : Fish} {l : List Slot}

theorem Shown.shows (h : Shown f l) : Shows f := ⟨l, h.leads, h.face⟩

/-- Different locations have different cells. -/
theorem cell_ne {a b : UInt16} (h : a ≠ b) : 2 * a.toNat ≠ 2 * b.toNat :=
  fun heq => h (UInt16.toNat_inj.mp (Nat.eq_of_mul_eq_mul_left Nat.two_pos heq))

theorem Listed.set (h : Listed f l) {p : Slot} {b : BlinkStruct}
    (hlocation : b.location = (f.blinkArray p).location) (hnext : b.next = (f.blinkArray p).next) :
    Listed (f.set p b) l :=
  h.of_step (by rw [links_set_of_next hnext]; exact h.leads) (List.Subset.refl l)
    fun q _ => location_set hlocation q

/-- A change that does not show. -/
theorem Shown.set (h : Shown f l) {p : Slot} {b : BlinkStruct}
    (hlocation : b.location = (f.blinkArray p).location) (hnext : b.next = (f.blinkArray p).next)
    (hface : b.face = (f.blinkArray p).face) : Shown (f.set p b) l := by
  refine ⟨h.toListed.set hlocation hnext, ?_, fun q hq => ?_⟩
  · simp only [location_set hlocation]
    exact h.apart
  · rw [location_set hlocation]
    by_cases hqp : q = p
    · subst hqp
      have hsame : (f.set q b).blinkArray q = b := Function.update_self ..
      rw [hsame, hface]
      exact h.face q hq
    · have hother : (f.set p b).blinkArray q = f.blinkArray q := Function.update_of_ne hqp _ _
      rw [hother]
      exact h.face q hq

/-- A change that is drawn: the cells of the other structures are elsewhere. -/
theorem Shown.draw (h : Shown f l) {p : Slot} (hp : p ∈ l) {b : BlinkStruct}
    (hlocation : b.location = (f.blinkArray p).location) (hnext : b.next = (f.blinkArray p).next) :
    Shown ((f.set p b).mp1Poke (2 * b.location.toNat) b.face) l := by
  have hlisted := h.toListed.set hlocation hnext
  refine ⟨⟨by rw [links_mp1Poke]; exact hlisted.leads, hlisted.used⟩, ?_, fun q hq => ?_⟩
  · simp only [blinkArray_mp1Poke, location_set hlocation]
    exact h.apart
  · rw [blinkArray_mp1Poke]
    by_cases hqp : q = p
    · subst hqp
      have hsame : (f.set q b).blinkArray q = b := Function.update_self ..
      rw [hsame]
      exact Function.update_self ..
    · have hother : (f.set p b).blinkArray q = f.blinkArray q := Function.update_of_ne hqp _ _
      have hne : (f.blinkArray q).location ≠ b.location := by
        rw [hlocation]
        exact fun heq => hqp (h.apart q hq p hp heq)
      rw [hother]
      exact (Function.update_of_ne (cell_ne hne) _ _).trans (h.face q hq)

theorem Shown.blink (h : Shown f l) {p : Slot} (hp : p ∈ l) : Shown (blink p f) l := by
  obtain ⟨b, hlocation, hnext, ⟨hface, hset⟩ | hpoke⟩ := blink_cases p f
  · rw [hset]
    exact h.set hlocation hnext hface
  · rw [hpoke]
    exact h.draw hp hlocation hnext

theorem Shown.blinked (h : Shown f l) {ps : List Slot} (hps : ps ⊆ l) :
    Shown (ps.foldl (fun t p => Fish.blink p t) f) l := by
  induction ps generalizing f with
  | nil => exact h
  | cons p ps ih =>
      exact ih (h.blink (hps List.mem_cons_self)) fun q hq => hps (List.mem_cons_of_mem p hq)

/-- A new structure at a location of its own. -/
theorem Shown.added (h : Shown f l) {user : BlinkStruct} {p : Slot} (hp : f.mp1Malloc = some p)
    (hne : user.location ≠ 0) (hnew : ∀ q ∈ l, (f.blinkArray q).location ≠ user.location) :
    Shown (Blink.added f user p) (p :: l) := by
  have hself : (Blink.added f user p).blinkArray p =
      { user with status := 1, countdown := user.onLength, next := f.mp1ListHead } :=
    Function.update_self ..
  have hother : ∀ q ∈ l, (Blink.added f user p).blinkArray q = f.blinkArray q := by
    intro q hq
    have hqp : q ≠ p := fun heq => h.not_mem hp (heq ▸ hq)
    exact Function.update_of_ne hqp _ _
  -- no other structure is at the new location, and its cell is the only one that is drawn
  refine ⟨h.toListed.added hp hne, fun q hq r hr heq => ?_, fun q hq => ?_⟩
  · rcases List.mem_cons.mp hq with rfl | hql
    · rcases List.mem_cons.mp hr with rfl | hrl
      · rfl
      · rw [hself, hother r hrl] at heq
        exact absurd heq.symm (hnew r hrl)
    · rcases List.mem_cons.mp hr with rfl | hrl
      · rw [hself, hother q hql] at heq
        exact absurd heq (hnew q hql)
      · rw [hother q hql, hother r hrl] at heq
        exact h.apart q hql r hrl heq
  · rcases List.mem_cons.mp hq with rfl | hql
    · have hon : (1 : UInt16) &&& 1 ≠ 0 := by decide
      rw [hself, BlinkStruct.face, if_pos hon]
      exact Function.update_self (2 * user.location.toNat) user.onChar f.vmem
    · rw [hother q hql]
      exact (Function.update_of_ne (cell_ne (hnew q hql)) _ _).trans (h.face q hql)

/-- The list without a structure. -/
theorem Shown.removed (h : Shown f l) {t : Fish} {p : Slot} (ht : Removed f l p t) :
    Shown t (l.erase p) := by
  have hsub : l.erase p ⊆ l := List.erase_subset
  refine ⟨h.toListed.of_step ht.leads hsub ht.location, fun q hq r hr heq => ?_, fun q hq => ?_⟩
  · rw [ht.location q hq, ht.location r hr] at heq
    exact h.apart q (hsub hq) r (hsub hr) heq
  · obtain ⟨n, hn⟩ := ht.others q hq
    rw [ht.vmem, hn]
    exact h.face q (hsub hq)

/-- The status copied is *off*, or the target's characters are the same: then the off
character is the right one. -/
def Harmless (f : Fish) (esi edi : Slot) : Prop :=
  (f.blinkArray esi).status &&& 1 = 0 ∨ (f.blinkArray edi).onChar = (f.blinkArray edi).offChar

theorem harmless_iff (f : Fish) (esi edi : Slot) :
    Harmless f esi edi ↔ (f.blinkArray edi).offChar = (synced f esi edi).face := by
  have hface : (synced f esi edi).face =
      if (f.blinkArray esi).status &&& 1 ≠ 0 then (f.blinkArray edi).onChar
      else (f.blinkArray edi).offChar := rfl
  rw [Harmless, hface]
  by_cases hstatus : (f.blinkArray esi).status &&& 1 = 0
  · rw [if_neg (not_not.mpr hstatus)]
    exact iff_of_true (.inl hstatus) rfl
  · rw [if_pos hstatus, or_iff_right hstatus]
    exact eq_comm

theorem Shown.synced (h : Shown f l) {esi edi : Slot} (hedi : edi ∈ l)
    (hharmless : Harmless f esi edi) :
    Shown (syncedState f esi edi) l := by
  have hlocation : (Blink.synced f esi edi).location = (f.blinkArray edi).location := rfl
  have hnext : (Blink.synced f esi edi).next = (f.blinkArray edi).next := rfl
  rw [syncedState, (harmless_iff f esi edi).mp hharmless]
  exact h.draw hedi hlocation hnext

/-- The target of a `RTC_SYNC` that is shown as it should be. -/
theorem Shows.harmless {esi edi : Slot} (h : Shows (syncedState f esi edi))
    (hleads : Leads f.links none l) (hedi : edi ∈ l) : Harmless f esi edi := by
  obtain ⟨l', hleads', hshown⟩ := h
  rw [links_syncedState] at hleads'
  have hmem : edi ∈ l' := hleads.unique hleads' ▸ hedi
  have hself : (syncedState f esi edi).blinkArray edi = Blink.synced f esi edi :=
    Function.update_self ..
  have hcell : (syncedState f esi edi).vmem (2 * (f.blinkArray edi).location.toNat) =
      (f.blinkArray edi).offChar := Function.update_self ..
  have htarget := hshown edi hmem
  rw [hself] at htarget
  exact (harmless_iff f esi edi).mpr (hcell.symm.trans htarget)

end Screen

/-- The locations at which structures are added. -/
def locations (events : List Event) : List UInt16 :=
  events.filterMap fun
    | .add user => some user.location
    | _ => none

/-- The calls that keep the screen right: a `RTC_SYNC` finds its two structures only if the
status it copies is *off*, or the target's two characters are the same. -/
def Draws (f : Fish) : Event → Prop
  | .sync arg => ∀ esi edi, Syncs f arg esi edi →
      (f.blinkArray esi).status &&& 1 = 0 ∨ (f.blinkArray edi).onChar = (f.blinkArray edi).offChar
  | _ => True

/-- What the calls still to come may count on. -/
structure Ready (f : Fish) (events : List Event) (l : List Slot) : Prop extends Shown f l where
  nodup : (locations events).Nodup
  nonzero : 0 ∉ locations events
  fresh : ∀ p ∈ l, (f.blinkArray p).location ∉ locations events

/-- The structures still listed are where they have been. -/
theorem Ready.rest {f t : Fish} {e : Event} {events : List Event} {l l' : List Slot}
    (h : Ready f (e :: events) l) (ht : Shown t l') (hsub : l' ⊆ l)
    (hlocation : ∀ p ∈ l', (t.blinkArray p).location = (f.blinkArray p).location) :
    Ready t events l' := by
  have htail : (locations events).Sublist (locations (e :: events)) :=
    (List.sublist_cons_self e events).filterMap _
  refine ⟨ht, h.nodup.sublist htail, fun h0 => h.nonzero (htail.subset h0), fun p hp hin => ?_⟩
  rw [hlocation p hp] at hin
  exact h.fresh p (hsub hp) (htail.subset hin)

/-- A structure is added at a location of its own. -/
theorem Ready.added {f : Fish} {user : BlinkStruct} {events : List Event} {l : List Slot} {p : Slot}
    (h : Ready f (.add user :: events) l) (hp : f.mp1Malloc = some p) :
    Ready (Blink.added f user p) events (p :: l) := by
  have hall : (user.location :: locations events).Nodup := h.nodup
  obtain ⟨hnot, hnodup⟩ := List.nodup_cons.mp hall
  obtain ⟨hne, hnonzero⟩ := not_or.mp (mt List.mem_cons.mpr h.nonzero)
  have hfresh : ∀ q ∈ l, (f.blinkArray q).location ≠ user.location ∧
      (f.blinkArray q).location ∉ locations events :=
    fun q hq => not_or.mp (mt List.mem_cons.mpr (h.fresh q hq))
  have hshown := h.toShown.added hp (Ne.symm hne) fun q hq => (hfresh q hq).1
  refine ⟨hshown, hnodup, hnonzero, fun q hq => ?_⟩
  rcases List.mem_cons.mp hq with rfl | hql
  · simpa [Blink.added] using hnot
  · have hqp : q ≠ p := fun heq => h.not_mem hp (heq ▸ hql)
    simpa [Blink.added, hqp] using (hfresh q hql).2

/-- **One call** with the screen right. -/
theorem Ready.step {f : Fish} {e : Event} {events : List Event} {l : List Slot}
    (h : Ready f (e :: events) l) :
    ∃ o t, Blink.step f e = some (o, t) ∧ (Draws f e → ∃ l', Ready t events l') ∧
      (Shows t → Draws f e) := by
  obtain ⟨o, t, ht, hstepped⟩ := step_cases h.leads e
  refine ⟨o, t, ht, ?_⟩
  have hall : l ⊆ l := List.Subset.refl l
  have hsame : Ready f events l := h.rest h.toShown hall fun _ _ => rfl
  cases hstepped with
  | refused _ => exact ⟨fun _ => ⟨l, hsame⟩, fun _ => trivial⟩
  | @added user p hmalloc => exact ⟨fun _ => ⟨p :: l, h.added hmalloc⟩, fun _ => trivial⟩
  | missed arg => exact ⟨fun _ => ⟨l, hsame⟩, fun _ => trivial⟩
  | @removed arg p t hremoved =>
      exact ⟨fun _ => ⟨l.erase p, h.rest (h.toShown.removed hremoved) List.erase_subset
        hremoved.location⟩, fun _ => trivial⟩
  | found location => exact ⟨fun _ => ⟨l, hsame⟩, fun _ => trivial⟩
  | unsynced hnone => exact ⟨fun _ => ⟨l, hsame⟩, fun _ esi edi hs => absurd hs (hnone esi edi)⟩
  | @synced arg esi edi hsyncs =>
      have hedi : edi ∈ l := mem_of_mp1FindHelper h.leads hsyncs.target
      refine ⟨fun hdraws => ⟨l, h.rest (h.toShown.synced hedi (hdraws esi edi hsyncs)) hall
        fun q _ => location_syncedState f esi edi q⟩, fun hshows esi' edi' hsyncs' => ?_⟩
      -- the two searches find one structure each
      obtain rfl : esi = esi' :=
        Option.some.inj (Option.some.inj (hsyncs.source.symm.trans hsyncs'.source))
      obtain rfl : edi = edi' :=
        Option.some.inj (Option.some.inj (hsyncs.target.symm.trans hsyncs'.target))
      exact hshows.harmless h.leads hedi
  | ticked =>
      exact ⟨fun _ => ⟨l, h.rest (h.toShown.blinked hall) hall fun q _ => location_blinked l f q⟩,
        fun _ => trivial⟩

/-- **The screen stays right exactly if** no `RTC_SYNC` copies the status *on* to a structure
with two different characters: for every sequence of calls and ticks from an empty list in
which the structures are added at different locations other than 0. -/
theorem shown_iff (f : Fish) (hempty : f.mp1ListHead = none) (events : List Event)
    (hdistinct : (locations events).Nodup) (hnonzero : 0 ∉ locations events) :
    (∀ pre post, events = pre ++ post → ∃ os t, run step f pre = some (os, t) ∧ Shows t) ↔
      Along step Draws f events := by
  have hnone : ∀ p ∈ ([] : List Slot), False := fun p hp => absurd hp List.not_mem_nil
  have hinitial : Ready f events [] :=
    ⟨⟨⟨hempty, fun p hp => (hnone p hp).elim⟩, fun p hp => (hnone p hp).elim,
      fun p hp => (hnone p hp).elim⟩, hdistinct, hnonzero, fun p hp => (hnone p hp).elim⟩
  refine (along_iff (J := fun f events => ∃ l, Ready f events l) ?_ ?_ ⟨[], hinitial⟩).symm
  · rintro s events ⟨l, h⟩
    exact h.toShown.shows
  · rintro s e events ⟨l, h⟩
    exact h.step

instance (f : Fish) : (e : Event) → Decidable (Draws f e)
  | .sync arg =>
      match hsource : (f.mp1FindHelper (arg >>> 16).toUInt16).join,
          htarget : (f.mp1FindHelper arg.toUInt16).join with
      | some esi, some edi =>
          decidable_of_iff ((f.blinkArray esi).status &&& 1 = 0 ∨
              (f.blinkArray edi).onChar = (f.blinkArray edi).offChar)
            ⟨fun h esi' edi' hs => by
              rw [hs.source] at hsource
              rw [hs.target] at htarget
              cases hsource
              cases htarget
              exact h,
            fun h => h esi edi ⟨Option.join_eq_some_iff.mp hsource, Option.join_eq_some_iff.mp htarget⟩⟩
      | none, _ => .isTrue fun esi edi hs => by
          rw [hs.source] at hsource
          cases hsource
      | some _, none => .isTrue fun esi edi hs => by
          rw [hs.target] at htarget
          cases htarget
  | .add _ | .remove _ | .find _ | .tick => .isTrue trivial

/-- Two structures.  The first one goes off with a tick, and the second, which is on, is
synchronized with it; with the next tick both go on, and the second is removed. -/
theorem shown_two :
    let events := [.add { blinker 40 with onLength := 1, offLength := 1 }, .tick, .add (blinker 540),
      .sync (40 * 65536 + 540), .tick, .remove 540, .tick]
    cleared.mp1ListHead = none ∧
      ∀ pre post, events = pre ++ post → ∃ os t, run step cleared pre = some (os, t) ∧ Shows t := by
  refine ⟨rfl, (shown_iff cleared rfl _ (by decide) (by decide)).mpr ?_⟩
  decide +kernel

/-- The program's own call, `RTC_SYNC` from location 40 to 540: the status is *on*, and the
off character is shown. -/
theorem sync_on :
    let events := [.add (blinker 40), .add (blinker 540), .sync (40 * 65536 + 540)]
    (locations events).Nodup ∧ 0 ∉ locations events ∧
    (∃ os t, run step cleared events = some (os, t) ∧ t.mp1ListHead = some 1 ∧
      (t.blinkArray 1).location = 540 ∧ (t.blinkArray 1).status = 1 ∧ (t.blinkArray 1).onChar = 73 ∧
      t.vmem (2 * 540) = 77) ∧
    ¬ ∀ pre post, events = pre ++ post → ∃ os t, run step cleared pre = some (os, t) ∧ Shows t := by
  have heval : (run step cleared [.add (blinker 40), .add (blinker 540), .sync (40 * 65536 + 540)]).map
      (fun r => (r.2.mp1ListHead, (r.2.blinkArray 1).location, (r.2.blinkArray 1).status,
        (r.2.blinkArray 1).onChar, r.2.vmem (2 * 540))) = some (some 1, 540, 1, 73, 77) := by
    decide +kernel
  obtain ⟨⟨os, t⟩, hrun, hfields⟩ := Option.map_eq_some_iff.mp heval
  simp only [Prod.mk.injEq] at hfields
  obtain ⟨hhead, hlocation, hstatus, hon, hcell⟩ := hfields
  refine ⟨by decide, by decide, ⟨os, t, hrun, hhead, hlocation, hstatus, hon, hcell⟩, fun h => ?_⟩
  obtain ⟨os', t', hrun', l, hl, hshown⟩ := h _ [] (List.append_nil _).symm
  obtain ⟨-, rfl⟩ := Prod.mk.inj (Option.some.inj (hrun.symm.trans hrun'))
  -- the head of the list is the structure that has been synchronized
  cases l with
  | nil => cases hhead.symm.trans hl
  | cons p l =>
      obtain rfl : 1 = p := Option.some.inj (hhead.symm.trans hl.1)
      have hface := hshown 1 List.mem_cons_self
      rw [hlocation, hstatus, hon, if_pos (by decide)] at hface
      exact absurd (hcell.symm.trans hface) (by decide)

end LinuxBasedOs.Blink
