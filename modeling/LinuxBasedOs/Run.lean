/-
LinuxBasedOs/Run.lean

Runs of a partial step function that emits one output per event.

    step : σ → ε → Option (ρ × σ)

`none` means that the event has no successor in that state (the call never
returns, or is not possible there).  `run` threads a list of events through
`step` and collects the outputs.

Guarantees are usually conditional: they hold of the runs whose steps all meet
a condition `G` on the event and on the state it is taken from.  `Along G`
says so, and `run_invariant` is the rule for it: what every guarded step
preserves, every guarded run preserves.  `run_simulates` is the same rule for a machine
next to a function that says what its events are for.

A machine that can take every event in every state is a plain function
`σ → ε → σ`; `total` makes a step function of it.  For two such machines that take
the same events, say a program and what it is meant to do, `along_total_pair` is
the rule of exact guards: if a step keeps the two in agreement *exactly* when it
meets `G`, then they agree all along a run exactly when all its steps meet `G`.

For a machine that may refuse an event `along_iff` is the same rule, with the claim that
the run is possible on the other side.

`forLoop` is the counted loop `for (i = 0; i < n; i++)`, with its invariant rule.
-/
import Mathlib.Tactic

namespace Transition

variable {σ ε ρ : Type*}

/-! ### Runs -/

/-- Take the events in order, collecting the outputs. -/
def run (step : σ → ε → Option (ρ × σ)) : σ → List ε → Option (List ρ × σ)
  | s, [] => some ([], s)
  | s, e :: es =>
      (step s e).bind fun r => (run step r.2 es).map fun t => (r.1 :: t.1, t.2)

/-- Every step of the run meets `G` in the state it is taken from. -/
def Along (step : σ → ε → Option (ρ × σ)) (G : σ → ε → Prop) : σ → List ε → Prop
  | _, [] => True
  | s, e :: es => G s e ∧ ∀ o t, step s e = some (o, t) → Along step G t es

variable {step : σ → ε → Option (ρ × σ)} {G : σ → ε → Prop} {I : σ → Prop}

@[simp] theorem along_nil (s : σ) : Along step G s [] := trivial

/-- The first step of a run, and the rest. -/
theorem run_cons_eq_some {s t : σ} {e : ε} {es : List ε} {os : List ρ} :
    run step s (e :: es) = some (os, t) ↔
      ∃ o u os', step s e = some (o, u) ∧ run step u es = some (os', t) ∧ os = o :: os' := by
  rcases he : step s e with - | ⟨o, u⟩
  · simp [run, he]
  · rcases hr : run step u es with - | ⟨os', t'⟩
    · simp [run, he, hr]
    · simp only [run, he, hr, Option.bind_some, Option.map_some, Option.some.injEq, Prod.mk.injEq]
      constructor
      · rintro ⟨rfl, rfl⟩
        exact ⟨o, u, os', ⟨rfl, rfl⟩, by rw [hr], rfl⟩
      · rintro ⟨o', u', os'', ⟨rfl, rfl⟩, h₂, rfl⟩
        rw [hr] at h₂
        obtain ⟨rfl, rfl⟩ := Prod.mk.injEq .. ▸ Option.some.inj h₂
        exact ⟨rfl, rfl⟩

/-- The state a run leads to; `s` itself if the run stops on the way. -/
def final (step : σ → ε → Option (ρ × σ)) (s : σ) (es : List ε) : σ :=
  ((run step s es).map Prod.snd).getD s

theorem run_final (step : σ → ε → Option (ρ × σ)) (s : σ) (es : List ε)
    (h : (run step s es).isSome) :
    ∃ os, run step s es = some (os, final step s es) := by
  obtain ⟨⟨os, t⟩, hr⟩ := Option.isSome_iff_exists.mp h
  exact ⟨os, by rw [final, hr]; rfl⟩

theorem step_final {s : σ} {e : ε} {o : ρ} (h : (step s e).map Prod.fst = some o) :
    step s e = some (o, final step s [e]) := by
  obtain ⟨⟨o', t⟩, hst, rfl⟩ := Option.map_eq_some_iff.mp h
  rw [hst, final, run, hst]
  rfl

/-- A step whose output is only shown in another form. -/
theorem map_output_eq_some {α β : Type*} {x : Option (α × σ)} {f : α → β} {o : β} {t : σ} :
    (x.map fun r => (f r.1, r.2)) = some (o, t) ↔ ∃ v, x = some (v, t) ∧ f v = o := by
  constructor
  · intro h
    obtain ⟨⟨v, t'⟩, hx, hr⟩ := Option.map_eq_some_iff.mp h
    obtain ⟨ho, rfl⟩ := Prod.mk.inj hr
    exact ⟨v, hx, ho⟩
  · rintro ⟨v, rfl, rfl⟩
    rfl

/-! ### Guarded runs -/

/-- With a decidable guard a run can be checked by evaluating it. -/
instance decidableAlong [∀ s e, Decidable (G s e)] :
    (s : σ) → (es : List ε) → Decidable (Along step G s es)
  | _, [] => isTrue trivial
  | s, e :: es =>
      match h : step s e with
      | none =>
          decidable_of_iff (G s e) ⟨fun hG => ⟨hG, fun _ _ ht => by simp [h] at ht⟩, And.left⟩
      | some (o, t) =>
          haveI := decidableAlong t es
          decidable_of_iff (G s e ∧ Along step G t es)
            ⟨fun hG => ⟨hG.1, fun _ _ ht => by simp_all⟩, fun hG => ⟨hG.1, hG.2 o t h⟩⟩

/-- A guard that does not depend on the state. -/
theorem along_of_forall {P : ε → Prop} {es : List ε} (h : ∀ e ∈ es, P e) (s : σ) :
    Along step (fun _ => P) s es := by
  induction es generalizing s with
  | nil => trivial
  | cons e es ih =>
      exact ⟨h e List.mem_cons_self, fun _ t _ => ih (fun e' he' => h e' (List.mem_cons_of_mem e he')) t⟩

/-- The guard holds along the first part of a run. -/
theorem Along.left {s : σ} {es es' : List ε} (h : Along step G s (es ++ es')) :
    Along step G s es := by
  induction es generalizing s with
  | nil => trivial
  | cons e es ih => exact ⟨h.1, fun o t ht => ih (h.2 o t ht)⟩

/-- **Invariant rule.**  What every guarded step preserves, every guarded run
preserves. -/
theorem run_invariant
    (hstep : ∀ s e o t, I s → G s e → step s e = some (o, t) → I t)
    {s t : σ} {es : List ε} {os : List ρ} (hs : I s) (hG : Along step G s es)
    (hr : run step s es = some (os, t)) : I t := by
  induction es generalizing s os with
  | nil =>
      obtain ⟨-, rfl⟩ := Prod.mk.injEq .. ▸ Option.some.inj hr
      exact hs
  | cons e es ih =>
      obtain ⟨o, u, os', he, hr', rfl⟩ := run_cons_eq_some.mp hr
      exact ih (hstep s e o u hs hG.1 he) (hG.2 o u he) hr'

/-- **Simulation rule.**  A machine that keeps step with what its events are for, `f`, is
after a run where `f` has led. -/
theorem run_simulates {α : Type*} {f : α → ε → α} {R : σ → α → Prop}
    (hstep : ∀ s a e o t, R s a → G s e → step s e = some (o, t) → R t (f a e))
    {s t : σ} {a : α} {es : List ε} {os : List ρ} (hs : R s a) (hG : Along step G s es)
    (hr : run step s es = some (os, t)) : R t (es.foldl f a) := by
  induction es generalizing s a os with
  | nil =>
      obtain ⟨-, rfl⟩ := Prod.mk.injEq .. ▸ Option.some.inj hr
      exact hs
  | cons e es ih =>
      obtain ⟨o, u, os', he, hr', rfl⟩ := run_cons_eq_some.mp hr
      exact ih (hstep s a e o u hs hG.1 he) (hG.2 o u he) hr'

/-- **Exact guards of a machine that may refuse an event.**  `J` speaks of the state and of
the events still to come, and gives every event a successor.  If a step keeps `J` when it
meets `G`, and breaks `P` when it does not, then all steps of a run meet `G` exactly when
the run is possible and `P` holds of every state it passes through. -/
theorem along_iff {J : σ → List ε → Prop} {P : σ → Prop} (hP : ∀ s es, J s es → P s)
    (hstep : ∀ s e es, J s (e :: es) →
      ∃ o t, step s e = some (o, t) ∧ (G s e → J t es) ∧ (P t → G s e))
    {s : σ} {es : List ε} (hs : J s es) :
    Along step G s es ↔
      ∀ pre post, es = pre ++ post → ∃ os t, run step s pre = some (os, t) ∧ P t := by
  induction es generalizing s with
  | nil =>
      refine iff_of_true trivial fun pre post h => ?_
      rw [(List.append_eq_nil_iff.mp h.symm).1]
      exact ⟨[], s, rfl, hP s [] hs⟩
  | cons e es ih =>
      obtain ⟨o, t, ht, hkeep, hbreak⟩ := hstep s e es hs
      constructor
      · rintro ⟨hG, hG'⟩ pre post h
        cases pre with
        | nil => exact ⟨[], s, rfl, hP s _ hs⟩
        | cons e' pre =>
            obtain ⟨rfl, hes⟩ := List.cons.inj h
            obtain ⟨os, u, hrun, hu⟩ := (ih (hkeep hG)).mp (hG' o t ht) pre post hes
            exact ⟨o :: os, u, run_cons_eq_some.mpr ⟨o, t, os, ht, hrun, rfl⟩, hu⟩
      · intro h
        -- the state behind the first step, and the rest of the run from there
        have hrest : ∀ pre post, es = pre ++ post → ∃ os u, run step t pre = some (os, u) ∧ P u := by
          intro pre post hes
          obtain ⟨os, u, hrun, hu⟩ := h (e :: pre) post (by rw [hes]; rfl)
          obtain ⟨o', t', os', ht', hrun', -⟩ := run_cons_eq_some.mp hrun
          obtain ⟨-, rfl⟩ := Prod.mk.inj (Option.some.inj (ht.symm.trans ht'))
          exact ⟨os', u, hrun', hu⟩
        have hG : G s e := by
          obtain ⟨os, u, hrun, hu⟩ := hrest [] es rfl
          obtain ⟨-, rfl⟩ := Prod.mk.inj (Option.some.inj hrun)
          exact hbreak hu
        refine ⟨hG, fun o' t' ht' => ?_⟩
        obtain ⟨-, rfl⟩ := Prod.mk.inj (Option.some.inj (ht.symm.trans ht'))
        exact (ih (hkeep hG)).mpr hrest

/-- What a run shows to the outside: what each event and its output `add`. -/
def history {β : Type*} (add : ε → ρ → List β) (es : List ε) (os : List ρ) : List β :=
  (List.zipWith add es os).flatten

/-- **Invariant rule with a history.**  The invariant speaks of the state and of
everything shown so far. -/
theorem run_history {β : Type*} {add : ε → ρ → List β} {J : List β → σ → Prop}
    (hstep : ∀ h s e o t, J h s → G s e → step s e = some (o, t) → J (h ++ add e o) t)
    {h : List β} {s t : σ} {es : List ε} {os : List ρ} (hs : J h s) (hG : Along step G s es)
    (hr : run step s es = some (os, t)) : J (h ++ history add es os) t := by
  induction es generalizing h s os with
  | nil =>
      obtain ⟨rfl, rfl⟩ := Prod.mk.injEq .. ▸ Option.some.inj hr
      rw [history, List.zipWith_nil_left, List.flatten_nil, List.append_nil]
      exact hs
  | cons e es ih =>
      obtain ⟨o, u, os', he, hr', rfl⟩ := run_cons_eq_some.mp hr
      have hu := ih (hstep h s e o u hs hG.1 he) (hG.2 o u he) hr'
      rw [List.append_assoc] at hu
      exact hu

/-! ### Machines that never refuse an event -/

/-- The step function of a machine that takes every event. -/
def total (f : σ → ε → σ) : σ → ε → Option (Unit × σ) := fun s e => some ((), f s e)

theorem total_eq_some {f : σ → ε → σ} {s t : σ} {e : ε} {o : Unit} :
    total f s e = some (o, t) ↔ f s e = t := by
  constructor
  · intro h
    exact (Prod.mk.inj (Option.some.inj h)).2
  · rintro rfl
    rfl

/-- Such a machine's run is a fold over the events. -/
theorem run_total (f : σ → ε → σ) (s : σ) (es : List ε) :
    run (total f) s es = some (es.map fun _ => (), es.foldl f s) := by
  induction es generalizing s with
  | nil => rfl
  | cons e es ih =>
      show ((run (total f) (f s e) es).map fun t => (() :: t.1, t.2)) = _
      rw [ih]
      rfl

/-- **Exact guards.**  Two such machines take the same events side by side.  If
`J` always holds of their states, and if `P` passes from one pair of states to
the next *exactly* when the step of the first machine meets `G`, then `P` holds
of all pairs of states they pass through exactly when all steps meet `G`. -/
theorem along_total_pair {τ : Type*} {f : σ → ε → σ} {g : τ → ε → τ} {J P : σ → τ → Prop}
    (es : List ε) (hJ : ∀ s t, ∀ e ∈ es, J s t → J (f s e) (g t e))
    (hP : ∀ s t, ∀ e ∈ es, J s t → P s t → (G s e ↔ P (f s e) (g t e)))
    {s : σ} {t : τ} (hj : J s t) (hp : P s t) :
    Along (total f) G s es ↔
      ∀ pre post, es = pre ++ post → P (pre.foldl f s) (pre.foldl g t) := by
  induction es generalizing s t with
  | nil =>
      refine iff_of_true trivial fun pre post h => ?_
      rw [(List.append_eq_nil_iff.mp h.symm).1]
      exact hp
  | cons e es ih =>
      have hstep := hP s t e List.mem_cons_self hj hp
      -- the rest of the run, once the first step has kept `P`
      have hrest := fun hp' : P (f s e) (g t e) =>
        ih (fun s t e' he' => hJ s t e' (List.mem_cons_of_mem e he'))
          (fun s t e' he' => hP s t e' (List.mem_cons_of_mem e he'))
          (hJ s t e List.mem_cons_self hj) hp'
      constructor
      · rintro ⟨hG, hG'⟩ pre post h
        cases pre with
        | nil => exact hp
        | cons e' pre =>
            obtain ⟨rfl, hes⟩ := List.cons.inj h
            exact (hrest (hstep.mp hG)).mp (hG' () _ rfl) pre post hes
      · intro h
        have hp' : P (f s e) (g t e) := h [e] es rfl
        refine ⟨hstep.mpr hp', fun o u hu => ?_⟩
        rw [total_eq_some] at hu
        rw [← hu]
        refine (hrest hp').mpr fun pre post hes => ?_
        exact h (e :: pre) post (by rw [hes]; rfl)

/-- The rule of exact guards for one machine. -/
theorem along_total_iff {f : σ → ε → σ} (hstep : ∀ s e, I s → (G s e ↔ I (f s e)))
    {s : σ} (hs : I s) (es : List ε) :
    Along (total f) G s es ↔ ∀ pre post, es = pre ++ post → I (pre.foldl f s) :=
  along_total_pair (g := fun t _ => t) (J := fun _ (_ : Unit) => True) (P := fun s _ => I s) es
    (fun _ _ _ _ h => h) (fun s _ e _ _ => hstep s e) (t := ()) trivial hs

/-- The invariant rule for such a machine. -/
theorem foldl_invariant {f : σ → ε → σ} (hstep : ∀ s e, I s → G s e → I (f s e))
    {s : σ} {es : List ε} (hs : I s) (hG : Along (total f) G s es) : I (es.foldl f s) := by
  refine run_invariant (I := I) (fun s e o t hs hG hst => ?_) hs hG (run_total f s es)
  rw [total_eq_some] at hst
  rw [← hst]
  exact hstep s e hs hG

/-! ### Counted loops -/

/-- `for (i = 0; i < n; i++) s = f i s`. -/
def forLoop (f : Nat → σ → σ) : Nat → σ → σ
  | 0, s => s
  | n + 1, s => f n (forLoop f n s)

/-- **Invariant rule of the counted loop.** -/
theorem forLoop_invariant {f : Nat → σ → σ} {n : Nat} {P : Nat → σ → Prop} {s : σ}
    (h0 : P 0 s) (hstep : ∀ i t, i < n → P i t → P (i + 1) (f i t)) :
    P n (forLoop f n s) := by
  induction n with
  | zero => exact h0
  | succ n ih =>
      exact hstep n _ (Nat.lt_succ_self n) (ih fun i t hi => hstep i t (Nat.lt_succ_of_lt hi))

/-- A loop over the elements of a sequence is a fold. -/
theorem forLoop_eq_foldl {α : Type*} (f : σ → α → σ) (g : Nat → α) (n : Nat) (s : σ) :
    forLoop (fun i t => f t (g i)) n s = ((List.range n).map g).foldl f s := by
  induction n with
  | zero => rfl
  | succ n ih =>
      rw [forLoop, ih, List.range_succ, List.map_append, List.foldl_append]
      rfl

end Transition
