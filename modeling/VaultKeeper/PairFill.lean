import Mathlib.Data.Nat.Log
import VaultKeeper.PairTree

/-!
# The List a Pairing Tree Joins

A pairing tree over a list whose length is no power of two joins some elements more than
once: in each round a lone last element stands twice. Written out in full, the elements the
rounds join are the list filled up to a power of two. Since the rounds see nothing else, the
top says no more about a list than its filling does.

## Main results

* `filled_of_one_lt`: the filling of a list is the filling of its pairs, taken apart.
* `top_eq_of_filled_eq`: lists with equal fillings have equal tops.
* `top_eq_iff_filled_eq`: and only these, when `node` is injective on the pairs joined and
  no element of one list is a join of the other.
-/

namespace PairTree

universe u v

/-- The elements `n` rounds join, a lone last element twice in each round. -/
def fill : ℕ → {α : Type u} → List α → List α
  | 0, _, l => l
  | n + 1, _, l => (fill n (pairs l)).flatMap fun p => [p.1, p.2]

/-- The list filled up to the next power of two. -/
def filled {α : Type u} (l : List α) : List α :=
  fill (Nat.clog 2 l.length) l

variable {α : Type u} {β : Type v} (node : α → α → α)

theorem filled_of_le_one {l : List α} (h : l.length ≤ 1) : filled l = l := by
  rw [filled, Nat.clog_of_right_le_one h, fill]

/-- The filling of a list is the filling of its pairs, taken apart. -/
theorem filled_of_one_lt {l : List α} (h : 1 < l.length) :
    filled l = (filled (pairs l)).flatMap fun p => [p.1, p.2] := by
  rw [filled, Nat.clog_of_two_le (by omega) h, fill, filled, length_pairs]
  rfl

/-- The pairs of the images are the images of the pairs. -/
theorem pairs_map (f : α → β) (l : List α) :
    pairs (l.map f) = (pairs l).map (Prod.map f f) := by
  induction l using pairs.induct with
  | case1 a b rest ih => simp [ih]
  | case2 a => simp
  | case3 => simp

/-- Filling up moves elements about and looks at none. -/
theorem fill_map (n : ℕ) (f : α → β) (l : List α) :
    fill n (l.map f) = (fill n l).map f := by
  induction n generalizing α β with
  | zero => rfl
  | succ n ih =>
      rw [fill, pairs_map, ih, fill, List.flatMap_map, List.map_flatMap]
      rfl

theorem filled_map (f : α → β) (l : List α) : filled (l.map f) = (filled l).map f := by
  rw [filled, filled, List.length_map, fill_map]

theorem filled_pairUp (l : List α) :
    filled (pairUp node l) = (filled (pairs l)).map fun p => node p.1 p.2 :=
  filled_map _ _

/-- The elements of the pairs are the elements of the list. -/
theorem mem_of_mem_pairs {l : List α} {p : α × α} {a : α} (hp : p ∈ pairs l)
    (ha : a ∈ [p.1, p.2]) : a ∈ l := by
  induction l using pairs.induct with
  | case1 b c rest ih =>
      rw [pairs_cons_cons, List.mem_cons] at hp
      rcases hp with rfl | hp
      · exact List.mem_append_left rest ha
      · exact List.mem_cons_of_mem b (List.mem_cons_of_mem c (ih hp))
  | case2 b =>
      obtain rfl : p = (b, b) := by simpa using hp
      simpa using ha
  | case3 => simp at hp

/-- Filling up adds no element. -/
theorem mem_of_mem_fill {n : ℕ} {l : List α} {a : α} (h : a ∈ fill n l) : a ∈ l := by
  induction n generalizing α with
  | zero => exact h
  | succ n ih =>
      rw [fill, List.mem_flatMap] at h
      obtain ⟨p, hp, ha⟩ := h
      exact mem_of_mem_pairs (ih hp) ha

/-- A list of pairs is determined by what it is when taken apart. -/
theorem flatMap_pair_injective :
    Function.Injective fun l : List (α × α) => l.flatMap fun p => [p.1, p.2] := by
  intro l₁ l₂ h
  induction l₁ generalizing l₂ with
  | nil =>
      cases l₂ with
      | nil => rfl
      | cons q rest => simp at h
  | cons p rest ih =>
      cases l₂ with
      | nil => simp at h
      | cons q rest' =>
          simp only [List.flatMap_cons, List.cons_append, List.nil_append,
            List.cons.injEq] at h
          obtain ⟨hfst, hsnd, hrest⟩ := h
          rw [Prod.ext hfst hsnd, ih hrest]

theorem filled_ne_nil {l : List α} (h : l ≠ []) : filled l ≠ [] := by
  have hfill : ∀ (n : ℕ) {γ : Type u} {m : List γ}, m ≠ [] → fill n m ≠ [] := by
    intro n
    induction n with
    | zero =>
        intro γ m hm
        exact hm
    | succ n ih =>
        intro γ m hm
        have hpairs : pairs m ≠ [] := by
          rw [← List.length_pos_iff, length_pairs]
          have := List.length_pos_iff.mpr hm
          omega
        obtain ⟨p, hp⟩ := List.exists_mem_of_ne_nil _ (ih hpairs)
        exact List.ne_nil_of_mem (List.mem_flatMap.mpr ⟨p, hp, List.mem_cons_self⟩)
  exact hfill _ h

/-- Two or more elements are filled up to two or more. -/
theorem one_lt_length_filled {l : List α} (h : 1 < l.length) : 1 < (filled l).length := by
  have hpairs : pairs l ≠ [] := by
    rw [← List.length_pos_iff, length_pairs]
    omega
  have hpos := List.length_pos_iff.mpr (filled_ne_nil hpairs)
  have hlen : (filled l).length = 2 * (filled (pairs l)).length := by
    rw [filled_of_one_lt h, List.length_flatMap]
    simp [mul_comm]
  omega

/-- Lists with one filling are both longer than one element, or neither is. -/
theorem one_lt_length_of_filled_eq {l₁ l₂ : List α} (h : filled l₁ = filled l₂)
    (hl : 1 < l₁.length) : 1 < l₂.length := by
  by_contra hle
  have hlong := one_lt_length_filled hl
  rw [h, filled_of_le_one (by omega)] at hlong
  exact hle hlong

/-! ### The top and the filling -/

/-- The filling is all that the top sees of a list. -/
theorem top_eq_of_filled_eq {l₁ l₂ : List α} (h₁ : l₁ ≠ []) (h₂ : l₂ ≠ [])
    (h : filled l₁ = filled l₂) : top node l₁ h₁ = top node l₂ h₂ := by
  induction l₁ using pairing_induction node generalizing l₂ with
  | base l₁ hl₁ =>
      have hl₂ : l₂.length ≤ 1 := by
        by_contra hlong
        have := one_lt_length_of_filled_eq h.symm (by omega)
        omega
      obtain rfl : l₁ = l₂ := by rwa [filled_of_le_one hl₁, filled_of_le_one hl₂] at h
      rfl
  | step l₁ hl₁ ih =>
      have hl₂ := one_lt_length_of_filled_eq h hl₁
      have hpairs : filled (pairs l₁) = filled (pairs l₂) := by
        rw [filled_of_one_lt hl₁, filled_of_one_lt hl₂] at h
        exact flatMap_pair_injective h
      rw [top_pairUp node h₁ hl₁, top_pairUp node h₂ hl₂]
      refine ih (pairUp_ne_nil node h₁) (pairUp_ne_nil node h₂) ?_
      rw [filled_pairUp, filled_pairUp, hpairs]

/-- The converse of `top_eq_of_filled_eq`. A round takes the joins apart, which are those of
pairs of the list. -/
theorem filled_eq_of_top_eq {l₁ l₂ : List α} (h₁ : l₁ ≠ []) (h₂ : l₂ ≠ [])
    (hinj : Set.InjOn (fun p : α × α => node p.1 p.2)
      {p | p ∈ joined node l₁ ∨ p ∈ joined node l₂})
    (hap₁ : Apart node l₁ l₂) (hap₂ : Apart node l₂ l₁)
    (h : top node l₁ h₁ = top node l₂ h₂) : filled l₁ = filled l₂ := by
  refine top_eq_induction node (motive := fun l₁ l₂ => filled l₁ = filled l₂)
    (fun _ => rfl) (fun l₁ l₂ hl₁ hl₂ hpairs hround => ?_) h₁ h₂ hinj hap₁ hap₂ h
  rw [filled_pairUp, filled_pairUp] at hround
  have hfilled : filled (pairs l₁) = filled (pairs l₂) := by
    refine eq_of_map_eq (hpairs.mono ?_) hround
    rintro p (hp | hp)
    · exact Or.inl (mem_of_mem_fill hp)
    · exact Or.inr (mem_of_mem_fill hp)
  rw [filled_of_one_lt hl₁, filled_of_one_lt hl₂, hfilled]

/-- **What the top says**: lists have one top exactly when they have one filling, when
`node` is injective on the pairs joined in the two constructions and no element of one list
is a join of the other. -/
theorem top_eq_iff_filled_eq {l₁ l₂ : List α} (h₁ : l₁ ≠ []) (h₂ : l₂ ≠ [])
    (hinj : Set.InjOn (fun p : α × α => node p.1 p.2)
      {p | p ∈ joined node l₁ ∨ p ∈ joined node l₂})
    (hap₁ : Apart node l₁ l₂) (hap₂ : Apart node l₂ l₁) :
    top node l₁ h₁ = top node l₂ h₂ ↔ filled l₁ = filled l₂ :=
  ⟨filled_eq_of_top_eq node h₁ h₂ hinj hap₁ hap₂, top_eq_of_filled_eq node h₁ h₂⟩

end PairTree
