/-
LinuxBasedOs/Chain.lean

Singly linked lists as pointers.

A *cell* is a place that holds a pointer: the head of the list, written `none`, or the next
field of the node `a`, written `some a`.  The heap is the function `links` from cells to
what they hold, a node or NULL.  `Leads links c l` says that the pointers lead from the
cell `c` through the nodes of `l` to a NULL.

Pointers are a function, so such a list visits no node twice (`Leads.nodup`): a finite list
is acyclic.  The loops over a list (`search`, `prev`, `traverse`) take a number of rounds;
they come to an end in some number of rounds exactly if the list does.
-/
import Mathlib.Tactic

namespace Chain

variable {α σ : Type*}

/-- From a link on, the pointers lead through the elements of a list, and then end. -/
def Leads (links : Option α → Option α) : Option α → List α → Prop
  | c, [] => links c = none
  | c, a :: l => links c = some a ∧ Leads links (some a) l

section Lists

variable {links : Option α → Option α}

theorem Leads.unique {c : Option α} {l l' : List α} (h : Leads links c l) (h' : Leads links c l') :
    l = l' := by
  induction l generalizing c l' with
  | nil =>
      cases l' with
      | nil => rfl
      | cons b l' => cases (show links c = none from h).symm.trans h'.1
  | cons a l ih =>
      cases l' with
      | nil => cases h.1.symm.trans (show links c = none from h')
      | cons b l' =>
          obtain rfl := Option.some.inj (h.1.symm.trans h'.1)
          rw [ih h.2 h'.2]

/-- The part of the list behind one of its nodes. -/
theorem Leads.of_append {c : Option α} {l₁ l₂ : List α} {a : α}
    (h : Leads links c (l₁ ++ a :: l₂)) : Leads links (some a) l₂ := by
  induction l₁ generalizing c with
  | nil => exact h.2
  | cons b l₁ ih => exact ih h.2

theorem Leads.nodup {c : Option α} {l : List α} (h : Leads links c l) : l.Nodup := by
  induction l generalizing c with
  | nil => exact List.nodup_nil
  | cons a l ih =>
      refine List.nodup_cons.mpr ⟨fun ha => ?_, ih h.2⟩
      -- from `a` the list would be as long as a proper part of itself
      obtain ⟨l₁, l₂, rfl⟩ := List.append_of_mem ha
      have hlen := congrArg List.length (h.2.unique h.2.of_append)
      rw [List.length_append, List.length_cons] at hlen
      omega

theorem Leads.length_le [Fintype α] {c : Option α} {l : List α} (h : Leads links c l) :
    l.length ≤ Fintype.card α :=
  h.nodup.length_le_card

/-- A node that points to itself is on no list that ends. -/
theorem not_leads_of_loop {a : α} (h : links (some a) = some a) (l : List α) :
    ¬ Leads links (some a) l := by
  induction l with
  | nil => exact fun h' => by cases h.symm.trans h'
  | cons b l ih =>
      intro h'
      obtain rfl := Option.some.inj (h.symm.trans h'.1)
      exact ih h'.2

/-- Only the cells of the list matter. -/
theorem Leads.congr {links' : Option α → Option α} {c : Option α} {l : List α}
    (h : Leads links c l) (hc : links' c = links c)
    (hl : ∀ a ∈ l, links' (some a) = links (some a)) : Leads links' c l := by
  induction l generalizing c with
  | nil => exact hc.trans h
  | cons a l ih =>
      have hrest := ih h.2 (hl a List.mem_cons_self) fun b hb => hl b (List.mem_cons_of_mem a hb)
      exact ⟨hc.trans h.1, hrest⟩

variable [DecidableEq α]

/-- A node in front of the list. -/
theorem Leads.push {l : List α} (h : Leads links none l) {a : α} (ha : a ∉ l) :
    Leads (Function.update (Function.update links (some a) (links none)) none (some a)) none
      (a :: l) := by
  refine ⟨Function.update_self .., ?_⟩
  -- the new node holds what the head has held
  have hfirst : Leads (Function.update links (some a) (links none)) (some a) l := by
    have hcells : ∀ b ∈ l, Function.update links (some a) (links none) (some b) = links (some b) := by
      intro b hb
      have hne : some b ≠ some a := fun heq => ha (Option.some.inj heq ▸ hb)
      exact Function.update_of_ne hne _ _
    cases l with
    | nil =>
        show Function.update links (some a) (links none) (some a) = none
        rw [Function.update_self]
        exact h
    | cons b l =>
        refine ⟨by rw [Function.update_self]; exact h.1, h.2.congr (hcells b List.mem_cons_self) ?_⟩
        exact fun d hd => hcells d (List.mem_cons_of_mem b hd)
  exact hfirst.congr (Function.update_of_ne (Option.some_ne_none a) _ _)
    fun b _ => Function.update_of_ne (Option.some_ne_none b) _ _

/-- A node taken out of the list: its cell takes what the node holds. -/
theorem Leads.bypass {c : Option α} {a : α} {l : List α} (h : Leads links c (a :: l))
    (hc : ∀ b ∈ l, c ≠ some b) : Leads (Function.update links c (links (some a))) c l := by
  have hcells : ∀ b ∈ l, Function.update links c (links (some a)) (some b) = links (some b) :=
    fun b hb => Function.update_of_ne (hc b hb).symm _ _
  cases l with
  | nil =>
      show Function.update links c (links (some a)) c = none
      rw [Function.update_self]
      exact h.2
  | cons b l =>
      refine ⟨by rw [Function.update_self]; exact h.2.1, h.2.2.congr (hcells b List.mem_cons_self) ?_⟩
      exact fun d hd => hcells d (List.mem_cons_of_mem b hd)

end Lists

/-! ### Loops over a list -/

section Loops

variable [DecidableEq α]

/-- `while (p != NULL) { if (test(p)) return p; p = p->next; } return NULL;` -/
def search (links : Option α → Option α) (test : α → Bool) :
    (rounds : Nat) → Option α → Option (Option α)
  | _, none => some none
  | 0, some _ => none
  | rounds + 1, some a =>
      if test a then some (some a) else search links test rounds (links (some a))

/-- The loop that looks for the cell that holds `a`, from the cell `c` on; it goes through a
NULL pointer if there is none. -/
def prev (links : Option α → Option α) (a : α) : (rounds : Nat) → Option α → Option (Option α)
  | 0, _ => none
  | rounds + 1, c =>
      if links c = some a then some c
      else (links c).bind fun b => prev links a rounds (some b)

/-- `while (p != NULL) { body(p); p = p->next; }`, where the state holds the pointers. -/
def traverse (links : σ → Option α → Option α) (body : α → σ → σ) :
    (rounds : Nat) → Option α → σ → Option σ
  | _, none, s => some s
  | 0, some _, _ => none
  | rounds + 1, some a, s => traverse links body rounds (links (body a s) (some a)) (body a s)

omit [DecidableEq α] in
theorem Leads.search_eq {links : Option α → Option α} {test : α → Bool} {c : Option α} {l : List α}
    (h : Leads links c l) {rounds : Nat} (hrounds : l.length ≤ rounds) :
    search links test rounds (links c) = some (l.find? test) := by
  induction l generalizing c rounds with
  | nil =>
      rw [show links c = none from h]
      cases rounds <;> rfl
  | cons a l ih =>
      obtain ⟨rounds, rfl⟩ : ∃ k, rounds = k + 1 := ⟨rounds - 1, by simp at hrounds; omega⟩
      rw [h.1, search, ih h.2 (Nat.le_of_succ_le_succ hrounds), List.find?_cons]
      cases test a <;> rfl

/-- The cell that is found, and the list without the node. -/
theorem Leads.prev_eq {links : Option α → Option α} {c : Option α} {a : α} {l : List α}
    (h : Leads links c l) (hc : ∀ b ∈ l, c ≠ some b) (ha : a ∈ l) {rounds : Nat}
    (hrounds : l.length ≤ rounds) :
    ∃ c', prev links a rounds c = some c' ∧ links c' = some a ∧
      Leads (Function.update links c' (links (some a))) c (l.erase a) := by
  induction l generalizing c rounds with
  | nil => cases ha
  | cons b l ih =>
      obtain ⟨rounds, rfl⟩ : ∃ k, rounds = k + 1 := ⟨rounds - 1, by simp at hrounds; omega⟩
      have hnodup := List.nodup_cons.mp h.nodup
      by_cases hab : b = a
      · -- the cell `c` itself holds the node
        subst hab
        refine ⟨c, by rw [prev, if_pos h.1], h.1, ?_⟩
        rw [List.erase_cons_head]
        exact h.bypass fun d hd => hc d (List.mem_cons_of_mem b hd)
      · have hin : a ∈ l := (List.mem_cons.mp ha).resolve_left (Ne.symm hab)
        obtain ⟨c', hprev, hfound, hleads⟩ := ih h.2
          (fun d hd heq => hnodup.1 (Option.some.inj heq ▸ hd)) hin (Nat.le_of_succ_le_succ hrounds)
        have hlink : links c ≠ some a := fun heq => hab (Option.some.inj (h.1.symm.trans heq))
        refine ⟨c', ?_, hfound, ?_⟩
        · rw [prev, if_neg hlink, h.1, Option.bind_some, hprev]
        · rw [List.erase_cons_tail (by simpa using hab)]
          have hcc : c ≠ c' := fun heq => hlink (heq ▸ hfound)
          exact ⟨by rw [Function.update_of_ne hcc]; exact h.1, hleads⟩

omit [DecidableEq α] in
/-- A loop whose body leaves the pointers visits the nodes in order. -/
theorem Leads.traverse_eq {links : σ → Option α → Option α} {body : α → σ → σ}
    (hbody : ∀ a s, links (body a s) = links s) {c : Option α} {l : List α} {s : σ}
    (h : Leads (links s) c l) {rounds : Nat} (hrounds : l.length ≤ rounds) :
    traverse links body rounds (links s c) s = some (l.foldl (fun t a => body a t) s) := by
  induction l generalizing c s rounds with
  | nil =>
      rw [show links s c = none from h]
      cases rounds <;> rfl
  | cons a l ih =>
      obtain ⟨rounds, rfl⟩ : ∃ k, rounds = k + 1 := ⟨rounds - 1, by simp at hrounds; omega⟩
      rw [h.1, traverse, List.foldl_cons]
      exact ih (by rw [hbody]; exact h.2) (Nat.le_of_succ_le_succ hrounds)

omit [DecidableEq α] in
/-- A loop that ends has come to a NULL. -/
theorem leads_of_traverse {links : σ → Option α → Option α} {body : α → σ → σ}
    (hbody : ∀ a s, links (body a s) = links s) {rounds : Nat} {c : Option α} {s t : σ}
    (h : traverse links body rounds (links s c) s = some t) : ∃ l, Leads (links s) c l := by
  induction rounds generalizing c s with
  | zero =>
      rcases hc : links s c with - | a
      · exact ⟨[], hc⟩
      · rw [hc] at h
        cases h
  | succ rounds ih =>
      rcases hc : links s c with - | a
      · exact ⟨[], hc⟩
      · rw [hc, traverse] at h
        obtain ⟨l, hl⟩ := ih h
        rw [hbody] at hl
        exact ⟨a :: l, hc, hl⟩

end Loops

end Chain
