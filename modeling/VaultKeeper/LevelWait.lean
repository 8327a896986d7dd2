import Mathlib.Data.List.Count
import VaultKeeper.LevelQueue

/-!
# Waiting in a Queue with Levels

How many elements go before a pending one: those that arrived earlier at its level or above
it, and those that arrived later above it. An arrival above it adds one, every element that is
taken is one of these, and when none is left it is the element itself.

## Main results

* `ahead_arrival`: what an arrival adds.
* `Represents.countP_le`: how many go before one that arrives.
* `Represents.pop_ahead`: what is taken while an element waits.
-/

namespace LevelQueue

variable {ι α : Type*} [LinearOrder ι]

/-- The number of pending elements that go before one of a level, by those that arrived before
it and after it. -/
def ahead (i : ι) (before after : List (ι × α)) : ℕ :=
  before.countP (fun e => i ≤ e.1) + after.countP (fun e => i < e.1)

/-- **An arrival** goes before the element when its level is higher. -/
theorem ahead_arrival (i : ι) (before after : List (ι × α)) (e : ι × α) :
    ahead i before (after ++ [e]) = ahead i before after + if i < e.1 then 1 else 0 := by
  rw [ahead, ahead, List.countP_append, List.countP_singleton, Nat.add_assoc]
  simp

/-- The lists of some levels are those of all levels when the others are emptied. -/
theorem flatMap_filter_le (q : ι → List α) (i : ι) (order : List ι) :
    (order.filter (i ≤ ·)).flatMap q = order.flatMap fun j => if i ≤ j then q j else [] := by
  induction order with
  | nil => rfl
  | cons j order ih =>
      rw [List.flatMap_cons, ← ih]
      by_cases hij : i ≤ j
      · rw [if_pos hij, List.filter_cons_of_pos (by simpa using hij), List.flatMap_cons]
      · rw [if_neg hij, List.filter_cons_of_neg (by simpa using hij), List.nil_append]

/-- The pending elements of a level and above are those in the queue at these levels. -/
theorem Represents.countP_le {q : ι → List α} {pending : List (ι × α)} (h : Represents q pending)
    {order : List ι} (horder : Descending order) (i : ι) :
    pending.countP (fun e => i ≤ e.1) = ((order.filter (i ≤ ·)).flatMap q).length := by
  have hupper : Represents (fun j => if i ≤ j then q j else [])
      (pending.filter fun e => i ≤ e.1) := by
    intro j
    rw [List.filter_filter]
    beta_reduce
    split_ifs with hij
    · rw [h j, List.filter_congr fun e _ => ?_]
      by_cases hj : e.1 = j <;> simp [hj, hij]
    · rw [List.filter_eq_nil_iff.mpr fun e _ => ?_, List.map_nil]
      rw [Bool.and_eq_true, decide_eq_true_eq, decide_eq_true_eq]
      rintro ⟨rfl, hle⟩
      exact hij hle
  rw [flatMap_filter_le, (hupper.perm horder).length_eq, List.length_map,
    List.countP_eq_length_filter]

/-- Two elements of a list are the same, or the one stands before the other. -/
theorem append_cons_cases {β : Type*} {l₁ l₂ r₁ r₂ : List β} {x y : β}
    (h : l₁ ++ x :: r₁ = l₂ ++ y :: r₂) :
    (l₁ = l₂ ∧ x = y ∧ r₁ = r₂) ∨ (∃ mid, l₂ = l₁ ++ x :: mid ∧ r₁ = mid ++ y :: r₂) ∨
      ∃ mid, l₁ = l₂ ++ y :: mid ∧ r₂ = mid ++ x :: r₁ := by
  rcases List.append_eq_append_iff.mp h with ⟨mid, rfl, hmid⟩ | ⟨mid, rfl, hmid⟩
  · cases mid with
    | nil =>
        obtain ⟨rfl, rfl⟩ := List.cons.inj hmid
        exact Or.inl ⟨(List.append_nil _).symm, rfl, rfl⟩
    | cons z mid =>
        obtain ⟨rfl, rfl⟩ := List.cons.inj hmid
        exact Or.inr (Or.inl ⟨mid, rfl, rfl⟩)
  · cases mid with
    | nil =>
        obtain ⟨rfl, rfl⟩ := List.cons.inj hmid
        exact Or.inl ⟨List.append_nil _, rfl, rfl⟩
    | cons z mid =>
        obtain ⟨rfl, rfl⟩ := List.cons.inj hmid
        exact Or.inr (Or.inr ⟨mid, rfl, rfl⟩)

/-- **While an element waits** something is taken: the element itself when none goes before it,
and otherwise one of those that do. -/
theorem Represents.pop_ahead {q : ι → List α} {before after : List (ι × α)} {i : ι} {a : α}
    (h : Represents q (before ++ (i, a) :: after)) {order : List ι} (horder : Descending order) :
    ∃ b q', LevelQueue.pop q order = some (b, q') ∧
      (ahead i before after = 0 ∧ b = a ∨
        ∃ before' after', Represents q' (before' ++ (i, a) :: after') ∧
          ahead i before after = ahead i before' after' + 1) := by
  have hsome : LevelQueue.pop q order ≠ none := by
    rw [Ne, pop_eq_none_iff]
    intro hempty
    exact h.ne_of_eq_nil (hempty i (horder.complete i)) (e := (i, a)) (by simp) rfl
  obtain ⟨⟨b, q'⟩, hpop⟩ := Option.ne_none_iff_exists'.mp hsome
  refine ⟨b, q', hpop, ?_⟩
  obtain ⟨taken, j, rest, hsplit, hlower, hle, -, hrest⟩ := h.pop horder hpop
  rcases append_cons_cases hsplit with ⟨rfl, heq, rfl⟩ | ⟨mid, rfl, rfl⟩ | ⟨mid, rfl, rfl⟩
  · -- the element itself
    obtain ⟨rfl, rfl⟩ := Prod.mk.inj heq
    refine Or.inl ⟨Nat.add_eq_zero_iff.mpr ⟨?_, ?_⟩, rfl⟩
    · rw [List.countP_eq_zero]
      intro e he
      simpa using hlower e he
    · rw [List.countP_eq_zero]
      intro e he
      simpa using hle e he
  · -- one that arrived later, at a higher level
    have hij : i < j := hlower (i, a) (by simp)
    refine Or.inr ⟨before, mid ++ rest, by simpa using hrest, ?_⟩
    rw [ahead, ahead, List.countP_append, List.countP_append,
      List.countP_cons_of_pos (by simpa using hij)]
    omega
  · -- one that arrived earlier, at a level that is not lower
    have hij : i ≤ j := hle (i, a) (by simp)
    refine Or.inr ⟨taken ++ mid, after, by simpa using hrest, ?_⟩
    rw [ahead, ahead, List.countP_append, List.countP_append,
      List.countP_cons_of_pos (by simpa using hij)]
    omega

end LevelQueue
