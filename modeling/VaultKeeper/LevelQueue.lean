import Mathlib.Data.List.Basic
import Mathlib.Order.Lattice

/-!
# Queues with Levels

A queue with one list of elements for each level: an element is appended at its level and
taken from the front of the first level that is not empty. What such a queue means is a
single list of the pending elements in the order of their arrival, each with its level;
the list of a level is the part of it that has the level.

## Main results

* `Represents.push`: an appended element arrives last.
* `Represents.pop`: what is taken is the first arrival of the highest level.
* `Represents.perm`: the levels hold the pending elements and nothing else.
-/

namespace LevelQueue

variable {ι α : Type*} [LinearOrder ι]

/-- Append an element at a level. -/
def push (q : ι → List α) (i : ι) (a : α) : ι → List α :=
  Function.update q i (q i ++ [a])

/-- Take the front of the first level that is not empty. -/
def pop (q : ι → List α) : List ι → Option (α × (ι → List α))
  | [] => none
  | i :: order =>
      match q i with
      | [] => pop q order
      | a :: rest => some (a, Function.update q i rest)

/-- The levels of a list of pending elements in the order of arrival. -/
def Represents (q : ι → List α) (pending : List (ι × α)) : Prop :=
  ∀ i, q i = (pending.filter (·.1 = i)).map Prod.snd

/-- All levels, the highest first. -/
structure Descending (order : List ι) : Prop where
  sorted : order.Pairwise (· > ·)
  complete : ∀ i, i ∈ order

theorem Descending.nodup {order : List ι} (h : Descending order) : order.Nodup :=
  h.sorted.imp fun hgt => ne_of_gt hgt

/-! ### What is taken -/

/-- Nothing is taken when all levels are empty. -/
theorem pop_eq_none_iff {q : ι → List α} {order : List ι} :
    pop q order = none ↔ ∀ i ∈ order, q i = [] := by
  induction order with
  | nil => simp [pop]
  | cons i order ih =>
      rw [pop, List.forall_mem_cons]
      cases hq : q i with
      | nil => simpa using ih
      | cons a rest => simp

/-- An element that is taken is the front of a level before which all are empty. -/
theorem pop_eq_some {q q' : ι → List α} {order : List ι} {a : α}
    (h : pop q order = some (a, q')) :
    ∃ higher i lower rest, order = higher ++ i :: lower ∧ (∀ j ∈ higher, q j = []) ∧
      q i = a :: rest ∧ q' = Function.update q i rest := by
  induction order with
  | nil => simp [pop] at h
  | cons i order ih =>
      rw [pop] at h
      cases hq : q i with
      | nil =>
          rw [hq] at h
          obtain ⟨higher, j, lower, rest, rfl, hhigher, hj, hq'⟩ := ih h
          exact ⟨i :: higher, j, lower, rest, rfl, by simpa [hq] using hhigher, hj, hq'⟩
      | cons b rest =>
          rw [hq] at h
          obtain ⟨rfl, rfl⟩ : b = a ∧ Function.update q i rest = q' := by simpa using h
          exact ⟨[], i, order, rest, rfl, by simp, hq, rfl⟩

/-- What is put in an empty queue is what is taken next. -/
theorem pop_push_of_empty {q : ι → List α} (hempty : ∀ i, q i = []) {order : List ι} {i : ι}
    (hi : i ∈ order) (a : α) : pop (push q i a) order = some (a, q) := by
  induction order with
  | nil => cases hi
  | cons j order ih =>
      rw [pop]
      by_cases hj : j = i
      · subst hj
        simp [push, hempty, Function.update_eq_self_iff.mpr]
      · have hlevel : push q i a j = [] := by
          rw [push, Function.update_of_ne hj, hempty]
        rw [hlevel]
        exact ih ((List.mem_cons.mp hi).resolve_left (Ne.symm hj))

/-! ### The order of arrival -/

theorem represents_empty : Represents (fun _ : ι => ([] : List α)) [] := fun _ => rfl

/-- A level is empty when no pending element has it. -/
theorem Represents.ne_of_eq_nil {q : ι → List α} {pending : List (ι × α)}
    (h : Represents q pending) {i : ι} (hi : q i = []) {e : ι × α} (he : e ∈ pending) :
    e.1 ≠ i := by
  rintro rfl
  rw [h, List.map_eq_nil_iff, List.filter_eq_nil_iff] at hi
  exact hi e he (by simp)

/-- An element is at a level when it is pending there. -/
theorem Represents.mem_iff {q : ι → List α} {pending : List (ι × α)}
    (h : Represents q pending) {i : ι} {a : α} : a ∈ q i ↔ (i, a) ∈ pending := by
  rw [h, List.mem_map]
  constructor
  · rintro ⟨⟨j, b⟩, hmem, rfl⟩
    obtain ⟨hpending, hj⟩ := List.mem_filter.mp hmem
    obtain rfl : j = i := by simpa using hj
    exact hpending
  · intro hmem
    exact ⟨(i, a), List.mem_filter.mpr ⟨hmem, by simp⟩, rfl⟩

/-- The elements of a level stand in the order of their arrival. -/
theorem Represents.sublist {q : ι → List α} {pending : List (ι × α)}
    (h : Represents q pending) (i : ι) : ((q i).map (Prod.mk i)).Sublist pending := by
  have hlevel : (q i).map (Prod.mk i) = pending.filter (·.1 = i) := by
    rw [h i, List.map_map, List.map_congr_left (g := id), List.map_id]
    rintro ⟨j, a⟩ hmem
    obtain rfl : j = i := by simpa using List.of_mem_filter hmem
    rfl
  rw [hlevel]
  exact List.filter_sublist

/-- **Appending**: the element arrives last. -/
theorem Represents.push {q : ι → List α} {pending : List (ι × α)} (h : Represents q pending)
    (i : ι) (a : α) : Represents (push q i a) (pending ++ [(i, a)]) := by
  intro j
  rw [LevelQueue.push, List.filter_append, List.map_append, ← h j]
  by_cases hj : j = i
  · subst hj
    simp
  · simp [hj, Ne.symm hj]

/-- **Taking**: the element is the first arrival of the highest level. All that arrived
before it have a lower level, all that arrived after it have no higher one, and these
remain, in the order of their arrival. -/
theorem Represents.pop {q q' : ι → List α} {pending : List (ι × α)} {order : List ι} {a : α}
    (h : Represents q pending) (horder : Descending order)
    (hpop : pop q order = some (a, q')) :
    ∃ before i after, pending = before ++ (i, a) :: after ∧ (∀ e ∈ before, e.1 < i) ∧
      (∀ e ∈ after, e.1 ≤ i) ∧ q i = a :: (after.filter (·.1 = i)).map Prod.snd ∧
      Represents q' (before ++ after) := by
  obtain ⟨higher, i, lower, rest, rfl, hhigher, hq, rfl⟩ := pop_eq_some hpop
  have hsorted := List.pairwise_append.mp horder.sorted
  have hle : ∀ e ∈ pending, e.1 ≤ i := by
    intro e he
    have hmem := horder.complete e.1
    rw [List.mem_append, List.mem_cons] at hmem
    rcases hmem with hmem | heq | hmem
    · exact absurd rfl (h.ne_of_eq_nil (hhigher _ hmem) he)
    · exact heq.le
    · exact le_of_lt ((List.pairwise_cons.mp hsorted.2.1).1 _ hmem)
  have hlevel := h i
  rw [hq] at hlevel
  obtain ⟨e, es, hfilter, rfl, rfl⟩ := List.map_eq_cons_iff.mp hlevel.symm
  obtain ⟨before, after, rfl, hbefore, he, rfl⟩ := List.filter_eq_cons_iff.mp hfilter
  obtain ⟨j, b⟩ := e
  obtain rfl : j = i := by simpa using he
  have hne : ∀ e ∈ before, e.1 ≠ j := by simpa using hbefore
  refine ⟨before, j, after, rfl, fun e hmem => ?_, fun e hmem => hle e (by simp [hmem]), hq,
    fun k => ?_⟩
  · exact lt_of_le_of_ne (hle e (by simp [hmem])) (hne e hmem)
  · by_cases hk : k = j
    · subst hk
      rw [Function.update_self, List.filter_append, List.filter_eq_nil_iff.mpr hbefore,
        List.nil_append]
    · rw [Function.update_of_ne hk, h k]
      simp [List.filter_append, Ne.symm hk]

/-- **Nothing else**: the levels together hold the pending elements. -/
theorem Represents.perm {q : ι → List α} {pending : List (ι × α)} {order : List ι}
    (h : Represents q pending) (horder : Descending order) :
    (order.flatMap q).Perm (pending.map Prod.snd) := by
  induction pending generalizing q with
  | nil =>
      have hq : ∀ i ∈ order, q i = [] := fun i _ => h i
      rw [List.flatMap_eq_nil_iff.mpr hq, List.map_nil]
  | cons e pending ih =>
      obtain ⟨i, a⟩ := e
      -- the levels without the first arrival, which is at the front of its own
      have hrest := ih (q := fun j => (pending.filter (·.1 = j)).map Prod.snd) fun _ => rfl
      have hnodup := horder.nodup
      obtain ⟨higher, lower, rfl⟩ := List.append_of_mem (horder.complete i)
      obtain ⟨-, htail, hdisjoint⟩ := List.nodup_append.mp hnodup
      have hhigher : i ∉ higher := fun hmem => hdisjoint i hmem i (by simp) rfl
      have hlower : i ∉ lower := (List.nodup_cons.mp htail).1
      have hother : ∀ j, j ≠ i → q j = (pending.filter (·.1 = j)).map Prod.snd := by
        intro j hj
        rw [h j, List.filter_cons_of_neg (by simpa using hj.symm)]
      have hown : q i = a :: (pending.filter (·.1 = i)).map Prod.snd := by
        rw [h i, List.filter_cons_of_pos (by simp), List.map_cons]
      rw [List.flatMap_append, List.flatMap_cons] at hrest ⊢
      rw [List.flatMap_congr fun j hj => hother j (ne_of_mem_of_not_mem hj hhigher),
        List.flatMap_congr fun j hj => hother j (ne_of_mem_of_not_mem hj hlower), hown,
        List.cons_append]
      exact List.perm_middle.trans (hrest.cons a)

end LevelQueue
