import Mathlib.Algebra.Order.Floor.Ring
import Mathlib.Data.Set.Basic
import Mathlib.Tactic.Linarith
import Mathlib.Tactic.NormNum
import Mathlib.Tactic.Positivity
import Mathlib.Tactic.Push
import Mathlib.Tactic.Ring

/-!
# Rounding

Rounding over an ordered field, in two parts that know nothing of a number format:

* `IsNearest R x d`: `d` is a member of the set `R` at least distance from `x`. A format
  is such a set, and what is said here holds of every choice among equidistant members.
* `halfEven`: the nearest integer, the even one of two at the same distance.

## Main results

* `IsNearest.eq_of_mem`, `IsNearest.le_of_le`, `IsNearest.le_of_ge`: rounding fixes the
  members of `R` and never crosses one.
* `IsNearest.mono`: rounding keeps the order.
* `abs_sub_halfEven_le`: `halfEven x` is the nearest integer.
* `halfEven_eq_of_abs_lt`, `halfEven_add_half`: its value off and on the ties.
-/

namespace Rounding

variable {K : Type*} [Field K] [LinearOrder K] [IsStrictOrderedRing K]

/-- `d` is a member of `R` that no other member is closer to `x` than. -/
structure IsNearest (R : Set K) (x d : K) : Prop where
  mem : d ∈ R
  le : ∀ e ∈ R, |x - d| ≤ |x - e|

variable {R : Set K} {x d a : K}

/-- Rounding fixes the members of the set. -/
theorem IsNearest.eq_of_mem (h : IsNearest R x d) (hx : x ∈ R) : d = x := by
  have hle := h.le x hx
  rw [sub_self, abs_zero] at hle
  have hzero := abs_eq_zero.mp (le_antisymm hle (abs_nonneg _))
  linarith

/-- Rounding does not go below a member that `x` is not below. -/
theorem IsNearest.le_of_le (h : IsNearest R x d) (ha : a ∈ R) (hax : a ≤ x) : a ≤ d := by
  by_contra hda
  push Not at hda
  have hle := h.le a ha
  rw [abs_of_nonneg (by linarith), abs_of_nonneg (by linarith)] at hle
  linarith

/-- Rounding does not go above a member that `x` is not above. -/
theorem IsNearest.le_of_ge (h : IsNearest R x d) (ha : a ∈ R) (hxa : x ≤ a) : d ≤ a := by
  by_contra had
  push Not at had
  have hle := h.le a ha
  rw [abs_of_nonpos (by linarith), abs_of_nonpos (by linarith)] at hle
  linarith

/-- Rounding keeps the order of different numbers, whichever of two members at the same
distance is chosen. -/
theorem IsNearest.mono {y e : K} (h : IsNearest R x d) (h' : IsNearest R y e) (hxy : x < y) :
    d ≤ e := by
  by_contra hed
  push Not at hed
  have hx := sq_le_sq.mpr (h.le e h'.mem)
  have hy := sq_le_sq.mpr (h'.le d h.mem)
  -- the midpoint of `e` and `d` is at most `x` and at least `y`
  have hmul : 0 < (d - e) * (y - x) := mul_pos (by linarith) (by linarith)
  nlinarith

variable [FloorRing K]

/-- The nearest integer, the even one of two at the same distance. -/
def halfEven (x : K) : ℤ :=
  let f := ⌊x⌋
  if x - f < 1 / 2 then f
  else if 1 / 2 < x - f then f + 1
  else if f % 2 = 0 then f
  else f + 1

/-- The nearest integer is at most half a unit away. -/
theorem abs_sub_halfEven_le (x : K) : |x - halfEven x| ≤ 1 / 2 := by
  have h₁ := Int.floor_le x
  have h₂ := Int.lt_floor_add_one x
  simp only [halfEven]
  split_ifs with hlow hhigh heven
  · rw [abs_of_nonneg (by linarith)]
    linarith
  · push_cast
    rw [abs_of_nonpos (by linarith)]
    linarith
  · rw [abs_of_nonneg (by linarith)]
    linarith
  · push_cast
    rw [abs_of_nonpos (by linarith)]
    linarith

/-- Less than half a unit from an integer, that integer is the nearest. -/
theorem halfEven_eq_of_abs_lt {n : ℤ} (h : |x - n| < 1 / 2) : halfEven x = n := by
  have hx := abs_sub_halfEven_le x
  have hdist : |(halfEven x : K) - n| < 1 := by
    calc |(halfEven x : K) - n| = |(x - n) - (x - halfEven x)| := by
          congr 1
          ring
      _ ≤ |x - n| + |x - halfEven x| := abs_sub _ _
      _ < 1 := by linarith
  have hint : |halfEven x - n| < 1 := by exact_mod_cast hdist
  have := Int.abs_lt_one_iff.mp hint
  omega

@[simp] theorem halfEven_intCast (n : ℤ) : halfEven (n : K) = n :=
  halfEven_eq_of_abs_lt (by simp)

/-- Halfway between two integers the even one is chosen. -/
theorem halfEven_add_half (n : ℤ) :
    halfEven ((n : K) + 1 / 2) = if n % 2 = 0 then n else n + 1 := by
  have hfloor : ⌊(n : K) + 1 / 2⌋ = n := by
    rw [Int.floor_intCast_add]
    norm_num
  simp only [halfEven, hfloor, add_sub_cancel_left, lt_irrefl, if_false]

/-- An odd integer is chosen only when it is less than half a unit away. -/
theorem abs_sub_halfEven_lt_of_odd (h : halfEven x % 2 = 1) : |x - halfEven x| < 1 / 2 := by
  refine lt_of_le_of_ne (abs_sub_halfEven_le x) fun htie => ?_
  rcases (abs_eq (by norm_num : (0 : K) ≤ 1 / 2)).mp htie with hpos | hneg
  · have hx := halfEven_add_half (K := K) (halfEven x)
    rw [← hpos, add_sub_cancel, if_neg (by omega)] at hx
    omega
  · have hx := halfEven_add_half (K := K) (halfEven x - 1)
    have hmid : ((halfEven x - 1 : ℤ) : K) + 1 / 2 = x := by
      push_cast
      linarith
    rw [hmid, if_pos (by omega)] at hx
    omega

/-- Rounding a number of tenths goes by its last digit. -/
theorem halfEven_div_ten (k : ℤ) :
    halfEven ((k : K) / 10) =
      if k % 10 < 5 then k / 10
      else if 5 < k % 10 then k / 10 + 1
      else if k / 10 % 2 = 0 then k / 10 else k / 10 + 1 := by
  have hsplit : (k : K) = 10 * (k / 10 : ℤ) + (k % 10 : ℤ) := by
    exact_mod_cast (Int.mul_ediv_add_emod k 10).symm
  have hlow : (0 : K) ≤ (k % 10 : ℤ) := by exact_mod_cast (by omega : 0 ≤ k % 10)
  have hhigh : ((k % 10 : ℤ) : K) ≤ 9 := by exact_mod_cast (by omega : k % 10 ≤ 9)
  rw [hsplit]
  split_ifs with hless hmore heven
  · have hle : ((k % 10 : ℤ) : K) ≤ 4 := by exact_mod_cast (by omega : k % 10 ≤ 4)
    refine halfEven_eq_of_abs_lt ?_
    rw [abs_of_nonneg (by linarith)]
    linarith
  · have hge : (6 : K) ≤ (k % 10 : ℤ) := by exact_mod_cast (by omega : 6 ≤ k % 10)
    refine halfEven_eq_of_abs_lt ?_
    push_cast
    rw [abs_of_nonpos (by linarith)]
    linarith
  all_goals
    have htie : (10 * (k / 10 : ℤ) + (k % 10 : ℤ) : K) / 10 = (k / 10 : ℤ) + 1 / 2 := by
      rw [show k % 10 = 5 by omega]
      push_cast
      ring
    rw [htie, halfEven_add_half]
  · exact if_pos heven
  · exact if_neg heven

/-- No integer is nearer than the nearest. -/
theorem abs_sub_halfEven_le_abs_sub (x : K) (n : ℤ) : |x - halfEven x| ≤ |x - n| := by
  by_cases h : |x - n| < 1 / 2
  · rw [halfEven_eq_of_abs_lt h]
  · exact (abs_sub_halfEven_le x).trans (not_lt.mp h)

/-- The nearest integer of a mirrored number is mirrored. -/
theorem halfEven_neg (x : K) : halfEven (-x) = -halfEven x := by
  by_cases h : |x - halfEven x| < 1 / 2
  · refine halfEven_eq_of_abs_lt ?_
    push_cast
    rwa [show -x - -(halfEven x : K) = -(x - halfEven x) by ring, abs_neg]
  · -- a tie: x is halfway between its floor and the next integer
    have hle := abs_sub_halfEven_le x
    have htie : |x - halfEven x| = 1 / 2 := le_antisymm hle (not_lt.mp h)
    obtain ⟨n, hn⟩ : ∃ n : ℤ, x = n + 1 / 2 := by
      rcases abs_eq (by norm_num : (0 : K) ≤ 1 / 2) |>.mp htie with hpos | hneg
      · exact ⟨halfEven x, by linarith⟩
      · exact ⟨halfEven x - 1, by push_cast; linarith⟩
    have hmirror : -x = ((-n - 1 : ℤ) : K) + 1 / 2 := by
      rw [hn]
      push_cast
      ring
    rw [hmirror, halfEven_add_half, hn, halfEven_add_half]
    split_ifs <;> omega

end Rounding
