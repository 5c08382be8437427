/-
LinuxBasedOs/Tlb.lean

A translation lookaside buffer: a cache in front of a lookup that the program may
change.

    look : Page → Option Entry

The processor may cache any translation at any time (`fill`), and uses what is cached
without asking again (`find`).  It drops what is cached only if it is told to (`flush`),
and even then keeps the entries marked as global.

`Coherent` says that everything cached is still what the lookup gives.  A program that
changes the tables and then flushes stays coherent if it has not touched the global
entries (`Coherent.flush`), and as long as the cache is coherent nobody can tell that it
is there (`Coherent.find`).
-/
import Mathlib.Logic.Function.Basic

namespace Tlb

variable {Page Entry : Type*}

/-- The translations that are cached. -/
abbrev Cache (Page Entry : Type*) := Page → Option Entry

/-- Nothing is cached. -/
def empty : Cache Page Entry := fun _ => none

/-- A page that is not present is not cached. -/
def fill [DecidableEq Page] (look : Page → Option Entry) (n : Page) (c : Cache Page Entry) :
    Cache Page Entry :=
  match look n with
  | none => c
  | some e => Function.update c n (some e)

/-- Only global entries stay. -/
def flush (isGlobal : Entry → Bool) (c : Cache Page Entry) : Cache Page Entry :=
  fun n => (c n).filter isGlobal

/-- The tables are looked at only if nothing is cached. -/
def find (look : Page → Option Entry) (c : Cache Page Entry) (n : Page) : Option Entry :=
  (c n).or (look n)

/-- Nothing stale is cached. -/
def Coherent (look : Page → Option Entry) (c : Cache Page Entry) : Prop :=
  ∀ n e, c n = some e → look n = some e

variable {look look' : Page → Option Entry} {c : Cache Page Entry}

theorem coherent_empty (look : Page → Option Entry) : Coherent look empty := by
  intro n e h
  cases h

theorem Coherent.fill [DecidableEq Page] (h : Coherent look c) (n : Page) :
    Coherent look (fill look n c) := by
  unfold Tlb.fill
  split
  · exact h
  · rename_i e he
    intro n' e' hc
    by_cases hn : n' = n
    · subst hn
      rw [Function.update_self] at hc
      rw [he, hc]
    · rw [Function.update_of_ne hn] at hc
      exact h n' e' hc

/-- **After a change of the tables**, what survives the flush is global, and the global
translations are those of before. -/
theorem Coherent.flush (h : Coherent look c) {isGlobal : Entry → Bool}
    (hglobal : ∀ n e, look n = some e → isGlobal e = true → look' n = some e) :
    Coherent look' (flush isGlobal c) := by
  intro n e hc
  obtain ⟨hcached, he⟩ := Option.filter_eq_some_iff.mp hc
  exact hglobal n e (h n e hcached) he

/-- **A coherent cache does not show.** -/
theorem Coherent.find (h : Coherent look c) (n : Page) : find look c n = look n := by
  unfold Tlb.find
  rcases hc : c n with - | e
  · rfl
  · exact (h n e hc).symm

end Tlb
