/-
LinuxBasedOs/Interaction.lean

Programs that make calls to a machine, while other things happen to the machine.

A program is a tree: it ends with a value, or it makes a call and goes on according to the
answer.  The machine

    answer : ι → σ → C → Option (A × σ)

answers a call, or does not (`none`).  Around the call something of `ι` happens to it,
which the program neither chooses nor sees.  `play` lets a program and a machine talk, for
given happenings, and records the dialogue.

`Wins` is total correctness against all happenings that `ok` allows: every call is answered,
the program ends, and its value, the dialogue and the last state meet the postcondition.
Its rules are `wins_bind` for sequences, `Wins.mono`, and `wins_loop` for loops, which have
fuel; the invariant counts the rounds that are left.  `wins_rounds` is for loops that need
not end, `Wins.lift` for machines with more calls.  `Wins.play` says that a program that
wins does so in each play.
-/
import Mathlib.Tactic

namespace Interaction

variable {ι ι' σ C C' A α β : Type}

/-! ### Programs -/

/-- A program with calls `C`, answers `A` and a value of type `α`. -/
inductive Prog (C A α : Type) : Type where
  | ret (x : α)
  | call (c : C) (next : A → Prog C A α)

namespace Prog

/-- One program after the other. -/
def bind : Prog C A α → (α → Prog C A β) → Prog C A β
  | ret x, f => f x
  | call c next, f => call c fun a => (next a).bind f

instance : Monad (Prog C A) where
  pure := ret
  bind := bind

/-- One call. -/
def ask (c : C) : Prog C A A := call c ret

/-- A loop: a round goes on with another state, or ends the loop.  `none` if the fuel does
not last. -/
def loop (round : β → Prog C A (β ⊕ α)) : (fuel : Nat) → β → Prog C A (Option α)
  | 0, _ => pure none
  | fuel + 1, b => do
      match ← round b with
      | .inl b' => loop round fuel b'
      | .inr x => pure (some x)

/-- The same program for a machine with other calls. -/
def lift (f : C → C') : Prog C A α → Prog C' A α
  | ret x => ret x
  | call c next => call (f c) fun a => (next a).lift f

end Prog

/-- What has been asked, with the answers. -/
abbrev Dialogue (C A : Type) := List (C × A)

/-- A program talks to the machine; `happens` is what happens around its calls. -/
def play (answer : ι → σ → C → Option (A × σ)) :
    Prog C A α → (happens : Nat → ι) → σ → Option (α × Dialogue C A × σ)
  | .ret x, _, s => some (x, [], s)
  | .call c next, happens, s =>
      (answer (happens 0) s c).bind fun r =>
        (play answer (next r.1) (fun n => happens (n + 1)) r.2).map fun q =>
          (q.1, (c, r.1) :: q.2.1, q.2.2)

theorem play_ret {answer : ι → σ → C → Option (A × σ)} {x y : α} {happens : Nat → ι} {s t : σ}
    {d : Dialogue C A} (h : play answer (.ret y) happens s = some (x, d, t)) : x = y ∧ d = [] ∧ t = s := by
  obtain ⟨rfl, hrest⟩ := Prod.mk.inj (Option.some.inj h)
  obtain ⟨rfl, rfl⟩ := Prod.mk.inj hrest
  exact ⟨rfl, rfl, rfl⟩

/-- The first call is answered, and the rest of the program goes on from there. -/
theorem play_call {answer : ι → σ → C → Option (A × σ)} {c : C} {next : A → Prog C A α} {x : α}
    {happens : Nat → ι} {s t : σ} {d : Dialogue C A}
    (h : play answer (.call c next) happens s = some (x, d, t)) :
    ∃ a u d', answer (happens 0) s c = some (a, u) ∧ d = (c, a) :: d' ∧
      play answer (next a) (fun n => happens (n + 1)) u = some (x, d', t) := by
  obtain ⟨⟨a, u⟩, hanswer, hrest⟩ := Option.bind_eq_some_iff.mp h
  obtain ⟨⟨y, d', t'⟩, hplay, hq⟩ := Option.map_eq_some_iff.mp hrest
  obtain ⟨rfl, hq'⟩ := Prod.mk.inj hq
  obtain ⟨rfl, rfl⟩ := Prod.mk.inj hq'
  exact ⟨a, u, d', hanswer, rfl, hplay⟩

/-- What happens around each call of the play is allowed. -/
def Allowed (answer : ι → σ → C → Option (A × σ)) (ok : ι → σ → C → Prop) :
    Prog C A α → (happens : Nat → ι) → σ → Prop
  | .ret _, _, _ => True
  | .call c next, happens, s =>
      ok (happens 0) s c ∧ ∀ a t, answer (happens 0) s c = some (a, t) →
        Allowed answer ok (next a) (fun n => happens (n + 1)) t

instance decidableAllowed {answer : ι → σ → C → Option (A × σ)} {ok : ι → σ → C → Prop}
    [∀ i s c, Decidable (ok i s c)] :
    (p : Prog C A α) → (happens : Nat → ι) → (s : σ) → Decidable (Allowed answer ok p happens s)
  | .ret _, _, _ => isTrue trivial
  | .call c next, happens, s =>
      match h : answer (happens 0) s c with
      | none =>
          decidable_of_iff (ok (happens 0) s c)
            ⟨fun hok => ⟨hok, fun a t ht => by rw [h] at ht; cases ht⟩, And.left⟩
      | some (a, t) =>
          haveI : Decidable (Allowed answer ok (next a) (fun n => happens (n + 1)) t) :=
            decidableAllowed (next a) (fun n => happens (n + 1)) t
          decidable_of_iff (ok (happens 0) s c ∧
              Allowed answer ok (next a) (fun n => happens (n + 1)) t)
            ⟨fun hok => ⟨hok.1, fun a' t' ht => by
                rw [h] at ht
                obtain ⟨rfl, rfl⟩ := Prod.mk.inj (Option.some.inj ht)
                exact hok.2⟩,
              fun hok => ⟨hok.1, hok.2 a t h⟩⟩

/-- Happenings that are fine everywhere. -/
theorem allowed_of_forall {answer : ι → σ → C → Option (A × σ)} {P : ι → Prop} (p : Prog C A α)
    {happens : Nat → ι} (h : ∀ n, P (happens n)) (s : σ) :
    Allowed answer (fun i _ _ => P i) p happens s := by
  induction p generalizing happens s with
  | ret x => trivial
  | call c next ih => exact ⟨h 0, fun a t _ => ih a (fun n => h (n + 1)) t⟩

/-! ### Total correctness -/

/-- Whatever happens, the program ends with `Q`. -/
def Wins (answer : ι → σ → C → Option (A × σ)) (ok : ι → σ → C → Prop) :
    Prog C A α → σ → (Q : α → Dialogue C A → σ → Prop) → Prop
  | .ret x, s, Q => Q x [] s
  | .call c next, s, Q =>
      ∀ i, ok i s c → ∃ a t, answer i s c = some (a, t) ∧
        Wins answer ok (next a) t fun x d => Q x ((c, a) :: d)

variable {answer : ι → σ → C → Option (A × σ)} {ok : ι → σ → C → Prop} {s : σ}

@[simp] theorem wins_pure {x : α} {Q : α → Dialogue C A → σ → Prop} :
    Wins answer ok (pure x : Prog C A α) s Q ↔ Q x [] s := Iff.rfl

theorem wins_ask {c : C} {Q : A → Dialogue C A → σ → Prop} :
    Wins answer ok (Prog.ask c) s Q ↔
      ∀ i, ok i s c → ∃ a t, answer i s c = some (a, t) ∧ Q a [(c, a)] t := Iff.rfl

theorem Wins.mono {p : Prog C A α} {Q R : α → Dialogue C A → σ → Prop}
    (h : Wins answer ok p s Q) (hQR : ∀ x d t, Q x d t → R x d t) : Wins answer ok p s R := by
  induction p generalizing s Q R with
  | ret x => exact hQR x [] s h
  | call c next ih =>
      intro i hi
      obtain ⟨a, t, hanswer, hnext⟩ := h i hi
      exact ⟨a, t, hanswer, ih a hnext fun x d t' => hQR x _ t'⟩

/-- **Sequence.**  The dialogues are put together. -/
theorem wins_bind {p : Prog C A α} {f : α → Prog C A β} {Q : β → Dialogue C A → σ → Prop} :
    Wins answer ok (p >>= f) s Q ↔
      Wins answer ok p s fun x d t => Wins answer ok (f x) t fun y d' => Q y (d ++ d') := by
  induction p generalizing s Q with
  | ret x => exact Iff.rfl
  | call c next ih =>
      refine forall_congr' fun i => forall_congr' fun _ => exists_congr fun a =>
        exists_congr fun t => and_congr_right fun _ => ?_
      exact ih a

/-- A first part that is known to win. -/
theorem Wins.bind {p : Prog C A α} {f : α → Prog C A β} {Q : α → Dialogue C A → σ → Prop}
    {R : β → Dialogue C A → σ → Prop} (h : Wins answer ok p s Q)
    (hnext : ∀ x d t, Q x d t → Wins answer ok (f x) t fun y d' => R y (d ++ d')) :
    Wins answer ok (p >>= f) s R :=
  wins_bind.mpr (h.mono hnext)

/-- **Loop.**  `I n b d s`: there are at most `n` rounds to come, from the loop's state `b`
and the machine's state `s`, and `d` has been said before.  A round that does not end the
loop leaves fewer. -/
theorem wins_loop {round : β → Prog C A (β ⊕ α)} {I : Nat → β → Dialogue C A → σ → Prop}
    {Q : α → Dialogue C A → σ → Prop}
    (hround : ∀ n b d t, I n b d t → Wins answer ok (round b) t fun r d' u =>
      match r with
      | .inl b' => ∃ m < n, I m b' (d ++ d') u
      | .inr x => Q x (d ++ d') u)
    {n fuel : Nat} (hfuel : n < fuel) {b : β} {d : Dialogue C A} (h : I n b d s) :
    Wins answer ok (Prog.loop round fuel b) s fun r d' t =>
      ∃ x, r = some x ∧ Q x (d ++ d') t := by
  induction fuel generalizing n b d s with
  | zero => omega
  | succ fuel ih =>
      rw [Prog.loop]
      refine (hround n b d s h).bind fun r d' u hr => ?_
      cases r with
      | inl b' =>
          obtain ⟨m, hm, hI⟩ := hr
          refine (ih (by omega) hI).mono fun o d'' t ho => ?_
          rw [← List.append_assoc]
          exact ho
      | inr x => exact ⟨x, rfl, by rw [List.append_nil]; exact hr⟩

/-- **Loop without an end.**  `I n b d s`: `n` rounds have been made.  The fuel may run out. -/
theorem wins_rounds {round : β → Prog C A (β ⊕ α)} {I : Nat → β → Dialogue C A → σ → Prop}
    {Q : α → Dialogue C A → σ → Prop}
    (hround : ∀ n b d t, I n b d t → Wins answer ok (round b) t fun r d' u =>
      match r with
      | .inl b' => I (n + 1) b' (d ++ d') u
      | .inr x => Q x (d ++ d') u)
    {n fuel : Nat} {b : β} {d : Dialogue C A} (h : I n b d s) :
    Wins answer ok (Prog.loop round fuel b) s fun r d' t =>
      match r with
      | none => ∃ b', I (n + fuel) b' (d ++ d') t
      | some x => Q x (d ++ d') t := by
  induction fuel generalizing n b d s with
  | zero => exact ⟨b, by rw [List.append_nil]; exact h⟩
  | succ fuel ih =>
      rw [Prog.loop]
      refine (hround n b d s h).bind fun r d' u hr => ?_
      cases r with
      -- one more round has been made, so one less is left
      | inl b' =>
          have hrest := ih hr
          rw [Nat.add_assoc, Nat.add_comm 1] at hrest
          refine hrest.mono fun o d'' t ho => ?_
          rw [← List.append_assoc]
          exact ho
      | inr x =>
          show Q x (d ++ (d' ++ [])) u
          rw [List.append_nil]
          exact hr

/-- A program for one machine, on a machine that answers the same calls in the same way. -/
theorem Wins.lift {answer' : ι' → σ → C' → Option (A × σ)} {ok' : ι' → σ → C' → Prop}
    {f : C → C'} {g : ι' → ι} (hanswer : ∀ i s c, answer' i s (f c) = answer (g i) s c)
    (hok : ∀ i s c, ok' i s (f c) → ok (g i) s c) {p : Prog C A α}
    {Q : α → Dialogue C A → σ → Prop} (h : Wins answer ok p s Q) :
    Wins answer' ok' (p.lift f) s fun x d t => ∃ d₀, d = d₀.map (Prod.map f id) ∧ Q x d₀ t := by
  induction p generalizing s Q with
  | ret x => exact ⟨[], rfl, h⟩
  | call c next ih =>
      intro i hi
      obtain ⟨a, t, ht, hnext⟩ := h (g i) (hok i s c hi)
      refine ⟨a, t, (hanswer i s c).trans ht, (ih a hnext).mono ?_⟩
      rintro x d u ⟨d₀, rfl, hQ⟩
      exact ⟨(c, a) :: d₀, rfl, hQ⟩

/-- **Adequacy.**  A program that wins ends in every play that is allowed. -/
theorem Wins.play {p : Prog C A α} {Q : α → Dialogue C A → σ → Prop}
    (h : Wins answer ok p s Q) {happens : Nat → ι} (hok : Allowed answer ok p happens s) :
    ∃ x d t, play answer p happens s = some (x, d, t) ∧ Q x d t := by
  induction p generalizing s Q happens with
  | ret x => exact ⟨x, [], s, rfl, h⟩
  | call c next ih =>
      obtain ⟨a, t, hanswer, hnext⟩ := h (happens 0) hok.1
      obtain ⟨x, d, u, hplay, hQ⟩ := ih a hnext (hok.2 a t hanswer)
      refine ⟨x, (c, a) :: d, u, ?_, hQ⟩
      rw [Interaction.play, hanswer, Option.bind_some, hplay]
      rfl

end Interaction
