import Mathlib.Data.Rat.Floor
import Mathlib.Tactic.FieldSimp
import Mathlib.Tactic.GCongr
import VaultKeeper.Rounding

/-!
# Fixed-Precision Decimals

`rust_decimal::Decimal` is not part of the repository. It is taken as the format its
documentation states: a mantissa below `2^96` in absolute value over a power of ten up to
`10^28`, every operation giving the representable value nearest to the exact result, the
even mantissa on a tie, and nothing (a panic) when the result is out of range. A
`Decimal` is the **value** of such a number; the trailing zeros that tell `1.0` from
`1.00` matter to no comparison and are not kept.

`Decimal.round` computes the nearest value by scanning the scales from 28 down.
`2^96` ends in the digit 6, so the value after `2^96 - 1` units of a scale is `2^96 + 4`
of them, reached at the scale below, and a result belongs to the scale when it is less
than `2^96 + 3/2` of its units.

## Main results

* `Decimal.round_eq_some_iff`: the scale and the mantissa of a rounded value.
* `Decimal.round_isNearest`: the rounded value is a nearest representable one.
* `Decimal.round_of_representable`: representable results are exact.
* `Decimal.round_isSome`: a result below `2^96 - 1/2` does not overflow.
-/

namespace VaultKeeper

open Rounding

/-- The values of the format. -/
def Decimal.Representable : Set ℚ :=
  {q | ∃ (m : ℤ) (s : ℕ), s ≤ 28 ∧ |m| < 2 ^ 96 ∧ q = m / 10 ^ s}

/-- A decimal number (`rust_decimal::Decimal`), by its value. -/
structure Decimal where
  val : ℚ
  representable : val ∈ Decimal.Representable
deriving DecidableEq

namespace Decimal

@[ext] theorem ext {a b : Decimal} (h : a.val = b.val) : a = b := by
  cases a
  cases b
  simpa using h

/-- The number of a mantissa at a scale, when both are in range. -/
def ofMantissa (m : ℤ) (s : ℕ) : Option Decimal :=
  if h : s ≤ 28 ∧ |m| < 2 ^ 96 then some ⟨m / 10 ^ s, m, s, h.1, h.2, rfl⟩ else none

/-- The literal `dec!(..)` with the given digits and decimals. -/
def lit (m : ℤ) (s : ℕ) (h : s ≤ 28 ∧ |m| < 2 ^ 96) : Decimal :=
  ⟨m / 10 ^ s, m, s, h.1, h.2, rfl⟩

/-- `Decimal::ZERO`. -/
def zero : Decimal :=
  lit 0 0 (by decide)

/-- `Decimal::from` of an unsigned integer of at most 64 bits. -/
def ofNat (n : ℕ) (h : n < 2 ^ 64) : Decimal :=
  lit n 0 ⟨by decide, by rw [abs_of_nonneg (by omega)]; omega⟩

/-- The nearest mantissa in range. -/
def clamp (m : ℤ) : ℤ :=
  max (-(2 ^ 96 - 1)) (min m (2 ^ 96 - 1))

/-- The rounding of an exact result at the given scale or below. -/
def roundAt (x : ℚ) : ℕ → Option Decimal
  | 0 => if |x| < 2 ^ 96 - 1 / 2 then ofMantissa (clamp (halfEven x)) 0 else none
  | s + 1 =>
      if |x| * 10 ^ (s + 1) < 2 ^ 96 + 3 / 2 then
        ofMantissa (clamp (halfEven (x * 10 ^ (s + 1)))) (s + 1)
      else roundAt x s

/-- The value nearest to an exact result; nothing on overflow. -/
def round (x : ℚ) : Option Decimal :=
  roundAt x 28

/-- `a + b`. -/
def add (a b : Decimal) : Option Decimal :=
  round (a.val + b.val)

/-- `a - b`. -/
def sub (a b : Decimal) : Option Decimal :=
  round (a.val - b.val)

/-- `a * b`. -/
def mul (a b : Decimal) : Option Decimal :=
  round (a.val * b.val)

/-- `a / b`; division by zero panics. -/
def div (a b : Decimal) : Option Decimal :=
  if b.val = 0 then none else round (a.val / b.val)

/-! ### Members of the format -/

@[simp] theorem zero_val : zero.val = 0 := by simp [zero, lit]

@[simp] theorem ofNat_val (n : ℕ) (h : n < 2 ^ 64) : (ofNat n h).val = n := by
  simp [ofNat, lit]

@[simp] theorem lit_val (m : ℤ) (s : ℕ) (h : s ≤ 28 ∧ |m| < 2 ^ 96) :
    (lit m s h).val = m / 10 ^ s := rfl

theorem zero_mem : (0 : ℚ) ∈ Representable :=
  zero_val ▸ zero.representable

theorem neg_mem {q : ℚ} (h : q ∈ Representable) : -q ∈ Representable := by
  obtain ⟨m, s, hs, hm, rfl⟩ := h
  exact ⟨-m, s, hs, by rwa [abs_neg], by push_cast; ring⟩

/-- The smallest positive value of the format. -/
theorem unit_mem : (1 / 10 ^ 28 : ℚ) ∈ Representable :=
  ⟨1, 28, le_rfl, by norm_num, by norm_num⟩

/-- Every value of the format is a multiple of the smallest positive one. -/
theorem exists_units (a : Decimal) : ∃ k : ℤ, a.val = k / 10 ^ 28 := by
  obtain ⟨m, s, hs, -, hval⟩ := a.representable
  refine ⟨m * 10 ^ (28 - s), ?_⟩
  rw [hval, div_eq_div_iff (by positivity) (by positivity)]
  push_cast
  rw [mul_assoc, ← pow_add, Nat.sub_add_cancel hs]

/-- A positive multiple of the smallest positive value is at least that value. -/
theorem unit_le_of_pos {k : ℤ} (h : (0 : ℚ) < k / 10 ^ 28) : (1 / 10 ^ 28 : ℚ) ≤ k / 10 ^ 28 := by
  have hk : (0 : ℚ) < k := by
    rcases lt_or_ge (0 : ℚ) k with hk | hk
    · exact hk
    · exact absurd h (not_lt.mpr (div_nonpos_of_nonpos_of_nonneg hk (by positivity)))
  have hk1 : (1 : ℚ) ≤ k := by exact_mod_cast hk
  gcongr

/-! ### The scan of the scales -/

/-- The scale a result is rounded at: the finest one whose mantissas reach it. -/
structure IsScale (x : ℚ) (s : ℕ) : Prop where
  le : s ≤ 28
  fits : |x| * 10 ^ s < 2 ^ 96 + 3 / 2
  inRange : s = 0 → |x| < 2 ^ 96 - 1 / 2
  finest : s < 28 → 2 ^ 96 + 3 / 2 ≤ |x| * 10 ^ (s + 1)

theorem IsScale.neg {x : ℚ} {s : ℕ} (h : IsScale x s) : IsScale (-x) s where
  le := h.le
  fits := by rw [abs_neg]; exact h.fits
  inRange hs := by rw [abs_neg]; exact h.inRange hs
  finest hs := by rw [abs_neg]; exact h.finest hs

theorem clamp_neg (m : ℤ) : clamp (-m) = -clamp m := by
  simp only [clamp]
  omega

theorem abs_clamp_lt (m : ℤ) : |clamp m| < 2 ^ 96 := by
  rw [abs_lt]
  rw [clamp]
  omega

/-- A mantissa in range is left alone. -/
theorem clamp_of_abs_lt {m : ℤ} (h : |m| < 2 ^ 96) : clamp m = m := by
  rw [abs_lt] at h
  rw [clamp]
  omega

theorem ofMantissa_clamp (m : ℤ) {s : ℕ} (hs : s ≤ 28) :
    ∃ d, ofMantissa (clamp m) s = some d ∧ d.val = clamp m / 10 ^ s :=
  ⟨_, dif_pos ⟨hs, abs_clamp_lt m⟩, rfl⟩

/-- A result that is too large for a scale is too large for every finer one. -/
theorem scale_mono {x : ℚ} {s t : ℕ} (hst : s ≤ t) (h : 2 ^ 96 + 3 / 2 ≤ |x| * 10 ^ s) :
    2 ^ 96 + 3 / 2 ≤ |x| * 10 ^ t := by
  refine h.trans ?_
  gcongr
  norm_num

/-- The scan stops at the finest scale that reaches the result. -/
theorem roundAt_eq_some_iff {x : ℚ} {d : Decimal} {n : ℕ} (hn : n ≤ 28) :
    roundAt x n = some d ↔
      ∃ s ≤ n, |x| * 10 ^ s < 2 ^ 96 + 3 / 2 ∧ (s = 0 → |x| < 2 ^ 96 - 1 / 2) ∧
        (s < n → 2 ^ 96 + 3 / 2 ≤ |x| * 10 ^ (s + 1)) ∧
        d.val = clamp (halfEven (x * 10 ^ s)) / 10 ^ s := by
  induction n with
  | zero =>
      obtain ⟨e, he, hval⟩ := ofMantissa_clamp (halfEven x) (Nat.zero_le 28)
      by_cases hx : |x| < 2 ^ 96 - 1 / 2
      · rw [roundAt, if_pos hx, he, Option.some.injEq]
        constructor
        · rintro rfl
          exact ⟨0, le_rfl, by linarith, fun _ => hx, by simp, by simpa using hval⟩
        · rintro ⟨s, hs, -, -, -, hd⟩
          obtain rfl : s = 0 := Nat.le_zero.mp hs
          exact ext (by simp_all)
      · rw [roundAt, if_neg hx]
        constructor
        · rintro ⟨⟩
        · rintro ⟨s, hs, -, hrange, -, -⟩
          exact absurd (hrange (Nat.le_zero.mp hs)) hx
  | succ n ih =>
      obtain ⟨e, he, hval⟩ := ofMantissa_clamp (halfEven (x * 10 ^ (n + 1))) hn
      by_cases hx : |x| * 10 ^ (n + 1) < 2 ^ 96 + 3 / 2
      · rw [roundAt, if_pos hx, he, Option.some.injEq]
        constructor
        · rintro rfl
          exact ⟨n + 1, le_rfl, hx, by simp, by simp, hval⟩
        · rintro ⟨s, hs, -, -, hfinest, hd⟩
          obtain rfl : s = n + 1 := by
            by_contra hne
            have hge := scale_mono (show s + 1 ≤ n + 1 by omega) (hfinest (by omega))
            exact absurd hx (not_lt.mpr hge)
          exact ext (hval.trans hd.symm)
      · rw [roundAt, if_neg hx, ih (by omega)]
        constructor
        · rintro ⟨s, hs, hfits, hrange, hfinest, hd⟩
          refine ⟨s, by omega, hfits, hrange, fun _ => ?_, hd⟩
          by_cases hsn : s < n
          · exact hfinest hsn
          · obtain rfl : s = n := by omega
            exact not_lt.mp hx
        · rintro ⟨s, hs, hfits, hrange, hfinest, hd⟩
          have hsn : s ≠ n + 1 := by
            rintro rfl
            exact hx hfits
          exact ⟨s, by omega, hfits, hrange, fun h => hfinest (by omega), hd⟩

/-- **The scale and the mantissa of a rounded value.** -/
theorem round_eq_some_iff {x : ℚ} {d : Decimal} :
    round x = some d ↔
      ∃ s, IsScale x s ∧ d.val = clamp (halfEven (x * 10 ^ s)) / 10 ^ s := by
  rw [round, roundAt_eq_some_iff le_rfl]
  constructor
  · rintro ⟨s, hs, hfits, hrange, hfinest, hd⟩
    exact ⟨s, ⟨hs, hfits, hrange, hfinest⟩, hd⟩
  · rintro ⟨s, ⟨hs, hfits, hrange, hfinest⟩, hd⟩
    exact ⟨s, hs, hfits, hrange, hfinest, hd⟩

/-- A result with a scale is rounded at it. -/
theorem IsScale.exists_round {x : ℚ} {s : ℕ} (h : IsScale x s) :
    ∃ d, round x = some d ∧ d.val = clamp (halfEven (x * 10 ^ s)) / 10 ^ s := by
  obtain ⟨d, -, hd⟩ := ofMantissa_clamp (halfEven (x * 10 ^ s)) h.le
  exact ⟨d, round_eq_some_iff.mpr ⟨s, h, hd⟩, hd⟩

/-- A result in range of the finest scale is rounded at it. -/
theorem exists_round_finest {x : ℚ} (h : |x * 10 ^ 28| < 2 ^ 96 + 3 / 2) :
    ∃ d, round x = some d ∧ d.val = clamp (halfEven (x * 10 ^ 28)) / 10 ^ 28 := by
  refine IsScale.exists_round ⟨le_rfl, ?_, by simp, by simp⟩
  rwa [abs_mul, abs_of_pos (by positivity : (0 : ℚ) < 10 ^ 28)] at h

/-- A positive result has the scale at which its units are in range, and ten times as many
are not. -/
theorem isScale_of_units {x y : ℚ} {s : ℕ} (hs : s ≤ 28) (h : x * 10 ^ s = y)
    (hrange : s = 0 → y < 2 ^ 96 - 1 / 2) (hfits : y < 2 ^ 96 + 3 / 2)
    (hfinest : 2 ^ 96 + 3 / 2 ≤ y * 10) : IsScale x s := by
  have hy : 0 ≤ y := by
    have hpos : (0 : ℚ) ≤ 2 ^ 96 + 3 / 2 := by positivity
    linarith
  have hx : 0 ≤ x := by
    by_contra hneg
    have hlt : x * 10 ^ s < 0 := mul_neg_of_neg_of_pos (not_le.mp hneg) (by positivity)
    linarith
  refine ⟨hs, ?_, fun hzero => ?_, fun _ => ?_⟩
  · rwa [abs_of_nonneg hx, h]
  · have hlt := hrange hzero
    rwa [← h, hzero, pow_zero, mul_one, ← abs_of_nonneg hx] at hlt
  · rwa [abs_of_nonneg hx, pow_succ (10 : ℚ), ← mul_assoc, h]

/-- A result has one scale. -/
theorem IsScale.unique {x : ℚ} {s t : ℕ} (hs : IsScale x s) (ht : IsScale x t) : s = t := by
  have hnot : ∀ {s t}, IsScale x s → IsScale x t → ¬ s < t := by
    intro s t hs ht hlt
    have hge := scale_mono (show s + 1 ≤ t by omega) (hs.finest (by have := ht.le; omega))
    exact absurd ht.fits (not_lt.mpr hge)
  exact le_antisymm (not_lt.mp (hnot ht hs)) (not_lt.mp (hnot hs ht))

/-- A result below `2^96 - 1/2` does not overflow. -/
theorem round_isSome {x : ℚ} (h : |x| < 2 ^ 96 - 1 / 2) : ∃ d, round x = some d := by
  suffices hall : ∀ n ≤ 28, ∃ d, roundAt x n = some d from hall 28 le_rfl
  intro n hn
  induction n with
  | zero =>
      obtain ⟨d, hd, -⟩ := ofMantissa_clamp (halfEven x) (Nat.zero_le 28)
      exact ⟨d, by rw [roundAt, if_pos h, hd]⟩
  | succ n ih =>
      by_cases hx : |x| * 10 ^ (n + 1) < 2 ^ 96 + 3 / 2
      · obtain ⟨d, hd, -⟩ := ofMantissa_clamp (halfEven (x * 10 ^ (n + 1))) hn
        exact ⟨d, by rw [roundAt, if_pos hx, hd]⟩
      · obtain ⟨d, hd⟩ := ih (by omega)
        exact ⟨d, by rw [roundAt, if_neg hx, hd]⟩

/-! ### The rounded value is a nearest one -/

section Nearest

variable {y : ℚ}

/-- The distance to the mantissa chosen, for a result that fits: at most half a unit, or
the clamped mantissa and the result are both at the end of the range. -/
private theorem clamp_halfEven_cases (hy : 0 ≤ y) :
    clamp (halfEven y) = halfEven y ∨
      clamp (halfEven y) = 2 ^ 96 - 1 ∧ (2 ^ 96 - 1 / 2 : ℚ) ≤ y := by
  have hdist := abs_le.mp (abs_sub_halfEven_le y)
  have hlow : (-1 : ℚ) < halfEven y := by linarith
  have hlow' : -1 < halfEven y := by exact_mod_cast hlow
  by_cases h : halfEven y ≤ 2 ^ 96 - 1
  · exact Or.inl (clamp_of_abs_lt (by rw [abs_lt]; omega))
  · refine Or.inr ⟨by unfold clamp; omega, ?_⟩
    have hge : (2 ^ 96 : ℤ) ≤ halfEven y := by omega
    have hge' : (2 ^ 96 : ℚ) ≤ halfEven y := by exact_mod_cast hge
    linarith

/-- The chosen mantissa is no farther than any other mantissa of the scale. -/
private theorem clamp_halfEven_le_of_int (hy : 0 ≤ y) {j : ℤ} (hj : j < 2 ^ 96) :
    |y - clamp (halfEven y)| ≤ |y - j| := by
  rcases clamp_halfEven_cases hy with h | ⟨h, hge⟩
  · rw [h]
    exact abs_sub_halfEven_le_abs_sub y j
  · have hj' : (j : ℚ) ≤ 2 ^ 96 - 1 := by exact_mod_cast (by omega : j ≤ 2 ^ 96 - 1)
    rw [h]
    push_cast
    rw [abs_of_nonneg (by linarith), abs_of_nonneg (by linarith)]
    linarith

/-- It is no farther than the values beyond the range of the scale, which start at
`2^96 + 4`. -/
private theorem clamp_halfEven_le_of_above (hy : 0 ≤ y) (hfit : y < 2 ^ 96 + 3 / 2) {v : ℚ}
    (hv : 2 ^ 96 + 4 ≤ v) : |y - clamp (halfEven y)| ≤ |y - v| := by
  rw [abs_of_nonpos (by linarith : y - v ≤ 0)]
  rcases clamp_halfEven_cases hy with h | ⟨h, hge⟩
  · rw [h]
    linarith [abs_sub_halfEven_le y]
  · rw [h]
    push_cast
    rw [abs_of_nonneg (by linarith)]
    linarith

/-- It is no farther than the values of the finer scales, which do not reach the result:
`2^96 - 1` of their units are a number of units and a half. -/
private theorem clamp_halfEven_le_of_below (hfinest : (2 ^ 96 + 3 / 2) / 10 ≤ y) {v : ℚ}
    (hv : v ≤ (2 ^ 96 - 1) / 10) : |y - clamp (halfEven y)| ≤ |y - v| := by
  have hy : 0 ≤ y := by
    have : (0 : ℚ) ≤ (2 ^ 96 + 3 / 2) / 10 := by norm_num
    linarith
  rw [abs_of_nonneg (by linarith : 0 ≤ y - v)]
  by_cases hclose : y ≤ (2 ^ 96 + 4) / 10
  · -- the mantissa above the finer scales is within a quarter of a unit
    have hle := clamp_halfEven_le_of_int hy
      (j := 7922816251426433759354395034) (by norm_num)
    push_cast at hle
    rw [abs_of_nonpos (by norm_num at hclose ⊢; linarith :
      y - 7922816251426433759354395034 ≤ 0)] at hle
    norm_num at hfinest hv ⊢
    linarith
  · push Not at hclose
    rcases clamp_halfEven_cases hy with h | ⟨h, hge⟩
    · rw [h]
      linarith [abs_sub_halfEven_le y]
    · rw [h]
      push_cast
      rw [abs_of_nonneg (by linarith)]
      linarith

end Nearest

/-- The mantissa chosen at the scale of a non-negative result is nearest among all
values of the format, measured in units of the scale. -/
private theorem clamp_halfEven_le {x : ℚ} {s : ℕ} (hx : 0 ≤ x) (hs : IsScale x s) {e : ℚ}
    (he : e ∈ Representable) :
    |x * 10 ^ s - clamp (halfEven (x * 10 ^ s))| ≤ |x * 10 ^ s - e * 10 ^ s| := by
  have hy : 0 ≤ x * 10 ^ s := by positivity
  have hfit := hs.fits
  rw [abs_of_nonneg hx] at hfit
  obtain ⟨k, t, ht, hk, rfl⟩ := he
  rw [abs_lt] at hk
  rcases lt_trichotomy t s with hts | rfl | hts
  · -- a coarser scale: a whole number of tens of units
    obtain ⟨u, rfl⟩ : ∃ u, s = t + u + 1 := ⟨s - t - 1, by omega⟩
    have hint : (k / 10 ^ t : ℚ) * 10 ^ (t + u + 1) = ((10 * (k * 10 ^ u) : ℤ) : ℚ) := by
      push_cast
      rw [pow_succ (10 : ℚ), pow_add (10 : ℚ)]
      field_simp
    rw [hint]
    set r := k * 10 ^ u
    by_cases hin : 10 * r < 2 ^ 96
    · exact clamp_halfEven_le_of_int hy hin
    · refine clamp_halfEven_le_of_above hy hfit ?_
      exact_mod_cast (by omega : (2 ^ 96 + 4 : ℤ) ≤ 10 * r)
  · rw [div_mul_cancel₀ _ (by positivity)]
    exact clamp_halfEven_le_of_int hy hk.2
  · -- a finer scale
    refine clamp_halfEven_le_of_below ?_ ?_
    · have hfinest := hs.finest (by omega)
      rw [abs_of_nonneg hx, pow_succ (10 : ℚ)] at hfinest
      linarith
    · have hk' : (k : ℚ) ≤ 2 ^ 96 - 1 := by exact_mod_cast (by omega : k ≤ 2 ^ 96 - 1)
      have hpow : (10 : ℚ) ^ t = 10 ^ s * 10 ^ (t - s) := by
        rw [← pow_add, Nat.add_sub_cancel' hts.le]
      have hten : (10 : ℚ) ≤ 10 ^ (t - s) := by
        calc (10 : ℚ) = 10 ^ 1 := (pow_one _).symm
          _ ≤ 10 ^ (t - s) := pow_le_pow_right₀ (by norm_num) (by omega)
      calc (k / 10 ^ t : ℚ) * 10 ^ s = k / 10 ^ (t - s) := by
            rw [hpow]
            field_simp
        _ ≤ (2 ^ 96 - 1) / 10 ^ (t - s) := by gcongr
        _ ≤ (2 ^ 96 - 1) / 10 := by gcongr

/-- **Rounding is to nearest.** -/
theorem round_isNearest {x : ℚ} {d : Decimal} (h : round x = some d) :
    IsNearest Representable x d.val := by
  obtain ⟨s, hs, hd⟩ := round_eq_some_iff.mp h
  refine ⟨d.representable, fun e he => ?_⟩
  have hpow : (0 : ℚ) < 10 ^ s := by positivity
  -- the distances in units of the scale, of the result or of its mirror image
  have hunits : |x * 10 ^ s - clamp (halfEven (x * 10 ^ s))| ≤ |x * 10 ^ s - e * 10 ^ s| := by
    rcases le_total 0 x with hx | hx
    · exact clamp_halfEven_le hx hs he
    · have hneg := clamp_halfEven_le (by linarith : 0 ≤ -x) hs.neg (neg_mem he)
      rw [neg_mul, neg_mul, halfEven_neg, clamp_neg] at hneg
      push_cast at hneg
      rwa [neg_sub_neg, neg_sub_neg, abs_sub_comm, abs_sub_comm (e * 10 ^ s)] at hneg
  rw [show x * 10 ^ s - clamp (halfEven (x * 10 ^ s)) = (x - d.val) * 10 ^ s by
      rw [hd, sub_mul, div_mul_cancel₀ _ hpow.ne'],
    show x * 10 ^ s - e * 10 ^ s = (x - e) * 10 ^ s by ring, abs_mul, abs_mul,
    abs_of_pos hpow] at hunits
  exact le_of_mul_le_mul_right hunits hpow

/-- Rounding keeps the order of results. -/
theorem round_mono {x y : ℚ} {d e : Decimal} (hx : round x = some d) (hy : round y = some e)
    (hxy : x ≤ y) : d.val ≤ e.val := by
  rcases hxy.eq_or_lt with rfl | hlt
  · rw [hx, Option.some.injEq] at hy
    rw [hy]
  · exact (round_isNearest hx).mono (round_isNearest hy) hlt

/-- Representable results are exact. -/
theorem round_of_representable {x : ℚ} (h : x ∈ Representable) : round x = some ⟨x, h⟩ := by
  have hlt : |x| < 2 ^ 96 - 1 / 2 := by
    obtain ⟨m, s, -, hm, rfl⟩ := h
    have hm' : (|m| : ℚ) ≤ 2 ^ 96 - 1 := by exact_mod_cast (by omega : |m| ≤ 2 ^ 96 - 1)
    have hpow : (1 : ℚ) ≤ 10 ^ s := one_le_pow₀ (by norm_num)
    rw [abs_div, abs_of_pos (by positivity : (0 : ℚ) < 10 ^ s)]
    calc |(m : ℚ)| / 10 ^ s ≤ |(m : ℚ)| := div_le_self (abs_nonneg _) hpow
      _ < 2 ^ 96 - 1 / 2 := by linarith
  obtain ⟨d, hd⟩ := round_isSome hlt
  rw [hd]
  exact congrArg some (ext ((round_isNearest hd).eq_of_mem h))

/-- A result overflows exactly from `2^96 - 1/2` on. -/
theorem exists_round_iff {x : ℚ} : (∃ d, round x = some d) ↔ |x| < 2 ^ 96 - 1 / 2 := by
  refine ⟨?_, round_isSome⟩
  rintro ⟨d, hd⟩
  obtain ⟨s, hs, -⟩ := round_eq_some_iff.mp hd
  cases s with
  | zero => exact hs.inRange rfl
  | succ s =>
      have hpow : (1 : ℚ) ≤ 10 ^ s := one_le_pow₀ (by norm_num)
      have hten : |x| * 10 ≤ |x| * 10 ^ (s + 1) := by
        rw [pow_succ (10 : ℚ)]
        gcongr
        linarith
      have hfits := hs.fits
      linarith

/-- A rounded value is exact exactly when the result is representable. -/
theorem round_exact_iff {x : ℚ} {d : Decimal} (h : round x = some d) :
    d.val = x ↔ x ∈ Representable := by
  constructor
  · rintro rfl
    exact d.representable
  · exact (round_isNearest h).eq_of_mem

/-- A product whose mantissa and scale are in range is exact. -/
theorem exists_mul {a b : Decimal} {m k : ℤ} {s j : ℕ} (ha : a.val = m / 10 ^ s)
    (hb : b.val = k / 10 ^ j) (hs : s + j ≤ 28) (hm : |m * k| < 2 ^ 96) :
    ∃ c, a.mul b = some c ∧ c.val = (m * k : ℤ) / 10 ^ (s + j) := by
  have hval : a.val * b.val = (m * k : ℤ) / 10 ^ (s + j) := by
    rw [ha, hb, pow_add]
    push_cast
    rw [div_mul_div_comm]
  refine ⟨lit (m * k) (s + j) ⟨hs, hm⟩, ?_, rfl⟩
  rw [mul, hval]
  exact round_of_representable (lit (m * k) (s + j) ⟨hs, hm⟩).representable

/-- A value never rounds away from a sign it does not have. -/
theorem round_nonpos {x : ℚ} {d : Decimal} (h : round x = some d) (hx : x ≤ 0) : d.val ≤ 0 :=
  (round_isNearest h).le_of_ge zero_mem hx

/-- A sum or difference of decimals that is positive stays positive. -/
theorem round_pos {k : ℤ} {d : Decimal} (h : round (k / 10 ^ 28) = some d)
    (hk : (0 : ℚ) < k / 10 ^ 28) : 0 < d.val :=
  lt_of_lt_of_le (by positivity)
    ((round_isNearest h).le_of_le unit_mem (unit_le_of_pos hk))

/-- A decimal has a scale, and is a mantissa in range there. -/
theorem exists_isScale (a : Decimal) :
    ∃ (s : ℕ) (m : ℤ), IsScale a.val s ∧ |m| < 2 ^ 96 ∧ a.val = m / 10 ^ s := by
  obtain ⟨s, hs, hval⟩ := round_eq_some_iff.mp (round_of_representable a.representable)
  exact ⟨s, _, hs, abs_clamp_lt _, hval⟩

/-- The mantissa of a decimal that is not negative is not negative. -/
theorem exists_isScale_of_nonneg {a : Decimal} (h0 : 0 ≤ a.val) :
    ∃ (s : ℕ) (m : ℤ), IsScale a.val s ∧ 0 ≤ m ∧ m < 2 ^ 96 ∧ a.val = m / 10 ^ s := by
  obtain ⟨s, m, hs, hm, hval⟩ := a.exists_isScale
  have hunits : (m : ℚ) = a.val * 10 ^ s := by
    rw [hval, div_mul_cancel₀ _ (by positivity)]
  have hm0 : (0 : ℚ) ≤ m := hunits ▸ by positivity
  exact ⟨s, m, hs, by exact_mod_cast hm0, (le_abs_self m).trans_lt hm, hval⟩

/-- A rounded value has the scale it was rounded at. -/
theorem IsScale.of_round {x : ℚ} {s : ℕ} {d : Decimal} (hx : 0 ≤ x) (hs : IsScale x s)
    (hd : d.val = clamp (halfEven (x * 10 ^ s)) / 10 ^ s) : IsScale d.val s := by
  have hpow : (0 : ℚ) < 10 ^ s := by positivity
  have habs : |d.val| * 10 ^ s = |(clamp (halfEven (x * 10 ^ s)) : ℚ)| := by
    rw [hd, abs_div, abs_of_pos hpow, div_mul_cancel₀ _ hpow.ne']
  have hlt : |(clamp (halfEven (x * 10 ^ s)) : ℚ)| ≤ 2 ^ 96 - 1 := by
    exact_mod_cast Int.le_sub_one_of_lt (abs_clamp_lt (halfEven (x * 10 ^ s)))
  refine ⟨hs.le, by linarith, fun hzero => ?_, fun hfine => ?_⟩
  · subst hzero
    simp only [pow_zero, mul_one] at habs hlt ⊢
    linarith
  · have hfinest := hs.finest hfine
    rw [abs_of_nonneg hx, pow_succ (10 : ℚ), ← mul_assoc] at hfinest
    have hdist := abs_le.mp (abs_sub_halfEven_le (x * 10 ^ s))
    have hlow : (7922816251426433759354395033 : ℚ) < halfEven (x * 10 ^ s) := by linarith
    have hlow' : 7922816251426433759354395033 < halfEven (x * 10 ^ s) := by exact_mod_cast hlow
    have hclamp : (7922816251426433759354395034 : ℤ) ≤ clamp (halfEven (x * 10 ^ s)) := by
      rw [clamp]
      omega
    have hclamp' : (7922816251426433759354395034 : ℚ) ≤ clamp (halfEven (x * 10 ^ s)) := by
      exact_mod_cast hclamp
    rw [pow_succ (10 : ℚ), ← mul_assoc, habs, abs_of_nonneg (by linarith)]
    linarith

/-! ### Rounding in the range of a scale -/

/-- In the range of a scale, rounding is at most half a unit of the scale away. -/
theorem exists_round_near {x : ℚ} {s : ℕ} (hs : s ≤ 28)
    (hx : |x| * 10 ^ s ≤ 2 ^ 96 - 1) :
    ∃ d, round x = some d ∧ |d.val - x| ≤ 1 / (2 * 10 ^ s) := by
  have hpow : (1 : ℚ) ≤ 10 ^ s := one_le_pow₀ (by norm_num)
  have hpos : (0 : ℚ) < 10 ^ s := by positivity
  have hrange : |x| < 2 ^ 96 - 1 / 2 := by
    have hle : |x| ≤ |x| * 10 ^ s := le_mul_of_one_le_right (abs_nonneg x) hpow
    linarith
  obtain ⟨d, hd⟩ := round_isSome hrange
  refine ⟨d, hd, ?_⟩
  -- the nearest mantissa of the scale is in range
  have hdist := abs_sub_halfEven_le (x * 10 ^ s)
  have habs : |x * 10 ^ s| ≤ 2 ^ 96 - 1 := by
    rwa [abs_mul, abs_of_pos hpos]
  have hmantissa : |halfEven (x * 10 ^ s)| < 2 ^ 96 := by
    rw [abs_le] at hdist habs
    have hlow : -(2 ^ 96 : ℚ) < halfEven (x * 10 ^ s) := by linarith
    have hhigh : (halfEven (x * 10 ^ s) : ℚ) < 2 ^ 96 := by linarith
    rw [abs_lt]
    exact ⟨by exact_mod_cast hlow, by exact_mod_cast hhigh⟩
  have hle := (round_isNearest hd).le _ ⟨_, s, hs, hmantissa, rfl⟩
  rw [abs_sub_comm]
  calc |x - d.val| ≤ |x - halfEven (x * 10 ^ s) / 10 ^ s| := hle
    _ = |x * 10 ^ s - halfEven (x * 10 ^ s)| / 10 ^ s := by
        rw [← abs_of_pos hpos, ← abs_div, abs_of_pos hpos, sub_div,
          mul_div_cancel_right₀ _ hpos.ne']
    _ ≤ 1 / 2 / 10 ^ s := by gcongr
    _ = 1 / (2 * 10 ^ s) := by rw [div_div]

theorem natCast_mem {n : ℕ} (hn : n < 2 ^ 96) : (n : ℚ) ∈ Representable :=
  ⟨n, 0, Nat.zero_le 28, by rw [abs_of_nonneg (by omega)]; exact_mod_cast hn, by simp⟩

theorem val_lt (d : Decimal) : d.val < 2 ^ 96 := by
  have hlt := (exists_round_iff (x := d.val)).mp
    ⟨_, round_of_representable d.representable⟩
  linarith [le_abs_self d.val]

/-- Rounding does not cross a whole number. -/
theorem round_le_natCast {x : ℚ} {d : Decimal} {n : ℕ} (h : round x = some d)
    (hx : x ≤ n) : d.val ≤ n := by
  by_cases hn : n < 2 ^ 96
  · exact (round_isNearest h).le_of_ge (natCast_mem hn) hx
  · have hn' : (2 ^ 96 : ℚ) ≤ n := by exact_mod_cast not_lt.mp hn
    linarith [d.val_lt]

theorem natCast_le_round {x : ℚ} {d : Decimal} {n : ℕ} (h : round x = some d)
    (hx : n ≤ x) : n ≤ d.val := by
  by_cases hn : n < 2 ^ 96
  · exact (round_isNearest h).le_of_le (natCast_mem hn) hx
  · have hn' : (2 ^ 96 : ℚ) ≤ n := by exact_mod_cast not_lt.mp hn
    have hlt := exists_round_iff.mp ⟨d, h⟩
    linarith [le_abs_self x]

end Decimal

end VaultKeeper
