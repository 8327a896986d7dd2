import Mathlib.Data.List.Induction
import Mathlib.Logic.Equiv.Defs

/-!
# Cutting a List into Chunks

A loop that starts at `0`, steps by `n` and stops at the length of a list cuts it into
chunks of `n`, of which the last may be shorter. The lists of chunks that come out are
exactly the `Canonical` ones, and joining the chunks undoes the cut.

## Main results

* `cut_of_ne_nil`: the loop takes the first chunk and goes on with the rest, so that
  `cut_induction` reaches every list.
* `length_cut`: the number of chunks is the length divided by `n`, rounded up.
* `equiv`: cutting and joining are inverse to each other between the lists and the
  canonical lists of chunks.
-/

namespace Chunks

/-- The numbers `i`, `i + n`, … below `stop`; a step of zero goes nowhere. -/
def stepBy (n stop i : ℕ) : List ℕ :=
  if 0 < n ∧ i < stop then i :: stepBy n stop (i + n) else []
termination_by stop - i

theorem stepBy_of_lt {n stop i : ℕ} (hn : 0 < n) (hi : i < stop) :
    stepBy n stop i = i :: stepBy n stop (i + n) := by
  rw [stepBy, if_pos ⟨hn, hi⟩]

theorem stepBy_of_le {n stop i : ℕ} (hi : stop ≤ i) : stepBy n stop i = [] := by
  rw [stepBy, if_neg (by omega)]

/-- A loop that starts later and stops later by as much takes the same steps. -/
theorem stepBy_add (n stop k i : ℕ) :
    stepBy n (stop + k) (i + k) = (stepBy n stop i).map (· + k) := by
  fun_induction stepBy n stop i with
  | case1 i h ih =>
      rw [stepBy_of_lt h.1 (by omega), List.map_cons, ← ih, Nat.add_right_comm]
  | case2 i h =>
      rw [stepBy, if_neg (by omega), List.map_nil]

/-- Every step stays below the end. -/
theorem lt_of_mem_stepBy {n stop i j : ℕ} (h : j ∈ stepBy n stop i) : j < stop := by
  fun_induction stepBy n stop i with
  | case1 i hi ih =>
      rcases List.mem_cons.mp h with rfl | h
      · exact hi.2
      · exact ih h
  | case2 i hi => simp at h

variable {α : Type*} {n : ℕ}

/-- The chunks of a list: for each step, the elements from there to the next step or to the
end. -/
def cut (n : ℕ) (l : List α) : List (List α) :=
  (stepBy n l.length 0).map fun i => l.extract i (min (i + n) l.length)

/-- Chunks of `n` elements, the last of which may be shorter but not empty. -/
def Canonical (n : ℕ) (chunks : List (List α)) : Prop :=
  (∀ chunk ∈ chunks.dropLast, chunk.length = n) ∧
    ∀ chunk ∈ chunks.getLast?, 1 ≤ chunk.length ∧ chunk.length ≤ n

@[simp] theorem canonical_nil : Canonical n ([] : List (List α)) := by
  simp [Canonical]

@[simp] theorem canonical_singleton {chunk : List α} :
    Canonical n [chunk] ↔ 1 ≤ chunk.length ∧ chunk.length ≤ n := by
  simp [Canonical]

@[simp] theorem canonical_cons_cons {first second : List α} {rest : List (List α)} :
    Canonical n (first :: second :: rest) ↔ first.length = n ∧ Canonical n (second :: rest) := by
  simp [Canonical, and_assoc]

/-- The first of canonical chunks is full as soon as another follows. -/
theorem Canonical.tail {chunk : List α} {rest : List (List α)} (h : Canonical n (chunk :: rest)) :
    Canonical n rest := by
  cases rest with
  | nil => exact canonical_nil
  | cons second rest => exact (canonical_cons_cons.mp h).2

/-! ### Cutting -/

@[simp] theorem cut_nil : cut n ([] : List α) = [] := by
  rw [cut, List.length_nil, stepBy_of_le (Nat.le_refl 0), List.map_nil]

/-- A list that fits into one chunk is that chunk. -/
theorem cut_of_length_le {l : List α} (hn : 0 < n) (hl : 0 < l.length) (hle : l.length ≤ n) :
    cut n l = [l] := by
  rw [cut, stepBy_of_lt hn hl, stepBy_of_le (by omega)]
  simp [List.extract, Nat.min_eq_right hle]

/-- **One turn of the loop**: the first chunk, then the chunks of the rest. -/
theorem cut_of_ne_nil (hn : 0 < n) {l : List α} (hl : l ≠ []) :
    cut n l = l.take n :: cut n (l.drop n) := by
  have hpos : 0 < l.length := List.length_pos_iff.mpr hl
  rcases (Nat.lt_or_ge n l.length).symm with hle | hlt
  · rw [cut_of_length_le hn hpos hle, List.take_of_length_le hle, List.drop_eq_nil_of_le hle,
      cut_nil]
  · have hlen : l.length = (l.drop n).length + n := by
      rw [List.length_drop]
      omega
    have hrest : stepBy n l.length n = (stepBy n (l.drop n).length 0).map (· + n) := by
      rw [← stepBy_add, ← hlen, Nat.zero_add]
    rw [cut, stepBy_of_lt hn hpos, Nat.zero_add, hrest, List.map_cons, List.map_map, cut]
    congr 1
    · simp [List.extract, Nat.min_eq_left (Nat.le_of_lt hlt)]
    · refine List.map_congr_left fun i hi => ?_
      have hsize : min (i + n + n) l.length - (i + n) = min (i + n) (l.drop n).length - i := by
        omega
      simp only [List.extract, Function.comp_apply, List.drop_drop, hsize, Nat.add_comm n i]

/-- Induction on a list by its chunks. -/
theorem cut_induction {motive : List α → Prop} (hn : 0 < n) (nil : motive [])
    (step : ∀ l, l ≠ [] → motive (l.drop n) → motive l) (l : List α) : motive l := by
  induction hk : l.length using Nat.strongRecOn generalizing l with
  | ind k ih =>
      subst hk
      rcases eq_or_ne l [] with rfl | hl
      · exact nil
      · have hpos : 0 < l.length := List.length_pos_iff.mpr hl
        refine step l hl (ih _ ?_ _ rfl)
        rw [List.length_drop]
        omega

/-- **Count**: the length divided by the size of a chunk, rounded up. -/
theorem length_cut (hn : 0 < n) (l : List α) : (cut n l).length = (l.length + n - 1) / n := by
  induction l using cut_induction hn with
  | nil => simp [Nat.div_eq_of_lt (Nat.sub_lt hn Nat.one_pos)]
  | step l hl ih =>
      have hpos : 0 < l.length := List.length_pos_iff.mpr hl
      rw [cut_of_ne_nil hn hl, List.length_cons, ih, List.length_drop]
      rcases (Nat.lt_or_ge n l.length).symm with hle | hlt
      · have hone : l.length + n - 1 = (l.length - 1) + n := by omega
        rw [Nat.sub_eq_zero_of_le hle, hone, Nat.add_div_right _ hn,
          Nat.div_eq_of_lt (by omega : 0 + n - 1 < n), Nat.div_eq_of_lt (by omega)]
      · have hnext : l.length + n - 1 = (l.length - n + n - 1) + n := by omega
        rw [hnext, Nat.add_div_right _ hn]

/-- **Shape**: the chunks of a list are canonical. -/
theorem canonical_cut (hn : 0 < n) (l : List α) : Canonical n (cut n l) := by
  induction l using cut_induction hn with
  | nil => simp
  | step l hl ih =>
      have hpos : 0 < l.length := List.length_pos_iff.mpr hl
      rcases (Nat.lt_or_ge n l.length).symm with hle | hlt
      · rw [cut_of_length_le hn hpos hle, canonical_singleton]
        exact ⟨hpos, hle⟩
      · have hrest : l.drop n ≠ [] := by simpa using hlt
        rw [cut_of_ne_nil hn hl]
        rw [cut_of_ne_nil hn hrest] at ih ⊢
        exact canonical_cons_cons.mpr ⟨by rw [List.length_take]; omega, ih⟩

/-- Joining the chunks of a list gives the list. -/
theorem flatten_cut (hn : 0 < n) (l : List α) : (cut n l).flatten = l := by
  induction l using cut_induction hn with
  | nil => simp
  | step l hl ih => rw [cut_of_ne_nil hn hl, List.flatten_cons, ih, List.take_append_drop]

/-- Cutting what canonical chunks join to gives the chunks. -/
theorem cut_flatten (hn : 0 < n) {chunks : List (List α)} (h : Canonical n chunks) :
    cut n chunks.flatten = chunks := by
  induction chunks with
  | nil => simp
  | cons chunk rest ih =>
      have hrest := ih h.tail
      cases rest with
      | nil =>
          obtain ⟨hpos, hle⟩ := canonical_singleton.mp h
          simpa using cut_of_length_le hn hpos hle
      | cons second rest =>
          have hfull := (canonical_cons_cons.mp h).1
          have hne : (chunk :: second :: rest).flatten ≠ [] := by
            rw [List.flatten_cons, ne_eq, List.append_eq_nil_iff]
            rintro ⟨rfl, -⟩
            exact absurd hfull (Nat.ne_of_lt hn)
          rw [cut_of_ne_nil hn hne, List.flatten_cons, List.take_left' hfull,
            List.drop_left' hfull, hrest]

/-- **Cutting is a bijection** from the lists to the canonical lists of chunks. -/
def equiv (n : ℕ) (hn : 0 < n) : List α ≃ {chunks : List (List α) // Canonical n chunks} where
  toFun l := ⟨cut n l, canonical_cut hn l⟩
  invFun chunks := chunks.val.flatten
  left_inv l := flatten_cut hn l
  right_inv chunks := Subtype.ext (cut_flatten hn chunks.property)

end Chunks
