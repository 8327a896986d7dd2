import VaultKeeper.RevenueSplit

/-!
# Splitting Revenue

`BillingCalculator::split_revenue` takes one tenth of a total for the platform and leaves the
rest to the hosts, by subtraction. At the finest scale of the format the subtraction and the
later addition are exact. At a coarser scale the platform share has one decimal more than the
total, and the host share needs one more as well; when nine times the mantissa is out of
range it is rounded to the scale of the total, and so is the sum. The sum is the total
again unless the two shares are ties.

## Main results

* `splitRevenue_finest`, `splitRevenue_coarse`: the two parts of a total, by its scale.
* `split_revenue_adds_up_iff`: the totals whose parts add up to them.
-/

namespace VaultKeeper

open Rounding

/-- Split a total cost between platform and hosts. -/
def BillingCalculator.splitRevenue (total : Decimal) : Option (Decimal × Decimal) := do
  let platform ← total.mul platformShare
  let host ← total.sub platform
  pure (platform, host)

/-- Verify that a split has no rounding loss. -/
def BillingCalculator.verifySplit (total platform host : Decimal) : Option Bool := do
  let sum ← platform.add host
  pure (total.val == sum.val)

/-- A total whose mantissa ends in 5 and is out of range when multiplied by nine, at a scale
that is not the finest. The largest mantissa is exempt, unless it has no decimals. -/
def SplitTie (total : Decimal) : Prop :=
  ∃ (m : ℤ) (s : ℕ), s < 28 ∧ total.val = m / 10 ^ s ∧ m % 10 = 5 ∧ 2 ^ 96 ≤ 9 * m ∧
    m < 2 ^ 96 ∧ (m + 1 < 2 ^ 96 ∨ s = 0)

section Split

variable {t : Decimal} {m : ℤ} {s : ℕ}

/-- Nine times the mantissa out of range: the scale is the finest that the total has. -/
theorem isScale_of_coarse (hs : s < 28) (ht : t.val = m / 10 ^ s) (hbig : 2 ^ 96 ≤ 9 * m)
    (hm : m < 2 ^ 96) : Decimal.IsScale t.val s := by
  have hm' : (m : ℚ) ≤ 2 ^ 96 - 1 := by exact_mod_cast (by omega : m ≤ 2 ^ 96 - 1)
  have hbig' : (2 ^ 96 : ℚ) ≤ 9 * m := by exact_mod_cast hbig
  refine Decimal.isScale_of_units hs.le (y := m) ?_ (fun _ => ?_) ?_ ?_
  · rw [ht, div_mul_cancel₀ _ (by positivity)]
  · linarith
  · linarith
  · linarith

/-- For a total at its scale the condition is on its mantissa. -/
theorem splitTie_iff (hs : Decimal.IsScale t.val s) (ht : t.val = m / 10 ^ s) :
    SplitTie t ↔ s < 28 ∧ m % 10 = 5 ∧ 2 ^ 96 ≤ 9 * m ∧ m < 2 ^ 96 ∧
      (m + 1 < 2 ^ 96 ∨ s = 0) := by
  constructor
  · rintro ⟨k, j, hj, hk, hdigit, hbig, hrange, hexempt⟩
    obtain rfl : s = j := hs.unique (isScale_of_coarse hj hk hbig hrange)
    obtain rfl : m = k := by
      have heq : (m : ℚ) / 10 ^ s = k / 10 ^ s := ht.symm.trans hk
      rw [div_left_inj' (by positivity)] at heq
      exact_mod_cast heq
    exact ⟨hj, hdigit, hbig, hrange, hexempt⟩
  · rintro ⟨hj, hdigit, hbig, hrange, hexempt⟩
    exact ⟨m, s, hj, ht, hdigit, hbig, hrange, hexempt⟩

theorem mul_platformShare (t : Decimal) :
    t.mul platformShare = Decimal.round (t.val * (1 / 10)) := by
  have hshare : platformShare.val = 1 / 10 := by norm_num [platformShare]
  rw [Decimal.mul, hshare]

/-- Below the finest scale the platform share is exact. -/
theorem platform_exact {p : Decimal} (hm : |m| < 2 ^ 96) (hs : s < 28) (ht : t.val = m / 10 ^ s)
    (hp : Decimal.round (t.val * (1 / 10)) = some p) : p.val = t.val * (1 / 10) :=
  (Decimal.round_exact_iff hp).mpr
    ⟨m, s + 1, hs, hm, by rw [ht, pow_succ (10 : ℚ)]; field_simp⟩

/-- With an exact platform share the host part is nine tenths, rounded once. -/
theorem splitRevenue_of_exact {p h : Decimal} (hp : Decimal.round (t.val * (1 / 10)) = some p)
    (hexact : p.val = t.val * (1 / 10)) (hh : Decimal.round (t.val * (9 / 10)) = some h) :
    BillingCalculator.splitRevenue t = some (p, h) := by
  have hrest : t.val - p.val = t.val * (9 / 10) := by
    rw [hexact]
    ring
  have hplatform : t.mul platformShare = some p := (mul_platformShare t).trans hp
  have hhost : t.sub p = some h := by rw [Decimal.sub, hrest, hh]
  rw [BillingCalculator.splitRevenue, hplatform, Option.bind_eq_bind, Option.bind_some, hhost]
  rfl

/-- At the finest scale the parts are whole units, and nothing is lost. -/
theorem splitRevenue_finest (h0 : 0 ≤ m) (hm : m < 2 ^ 96) (ht : t.val = m / 10 ^ 28) :
    ∃ p h, BillingCalculator.splitRevenue t = some (p, h) ∧ 0 ≤ p.val ∧ 0 ≤ h.val ∧
      p.add h = some t := by
  obtain ⟨p, hp, hpval⟩ := share_finest (x := t.val * (1 / 10)) (k := m) (by rw [ht]; ring) h0
    (by omega)
  have hplatform : t.mul platformShare = some p := (mul_platformShare t).trans hp
  have hunits : 0 ≤ halfEven ((m : ℚ) / 10) ∧ halfEven ((m : ℚ) / 10) ≤ m := by
    rw [halfEven_div_ten]
    split_ifs <;> omega
  obtain ⟨hlow, hhigh⟩ := hunits
  have hrest : t.val - p.val = ((m - halfEven ((m : ℚ) / 10) : ℤ) : ℚ) / 10 ^ 28 := by
    rw [ht, hpval, ← sub_div]
    push_cast
    rfl
  obtain ⟨h, hh⟩ : ∃ h : Decimal, h.val = t.val - p.val :=
    ⟨.lit (m - halfEven ((m : ℚ) / 10)) 28 ⟨le_rfl, by rw [abs_lt]; omega⟩, hrest.symm⟩
  have hhost : t.sub p = some h := by
    rw [Decimal.sub, ← hh]
    exact Decimal.round_of_representable h.representable
  refine ⟨p, h, ?_, ?_, ?_, ?_⟩
  · rw [BillingCalculator.splitRevenue, hplatform, Option.bind_eq_bind, Option.bind_some, hhost]
    rfl
  · have hlow' : (0 : ℚ) ≤ halfEven ((m : ℚ) / 10) := by exact_mod_cast hlow
    rw [hpval]
    positivity
  · have hpos : (0 : ℚ) ≤ ((m - halfEven ((m : ℚ) / 10) : ℤ) : ℚ) := by
      exact_mod_cast (by omega : 0 ≤ m - halfEven ((m : ℚ) / 10))
    rw [hh, hrest]
    positivity
  · have hsum : p.val + (t.val - p.val) = t.val := by ring
    rw [Decimal.add, hh, hsum]
    exact Decimal.round_of_representable t.representable

/-- The two parts of a total are never negative. -/
theorem shares_nonneg {p h : Decimal} (h0 : 0 ≤ t.val)
    (hp : Decimal.round (t.val * (1 / 10)) = some p)
    (hh : Decimal.round (t.val * (9 / 10)) = some h) : 0 ≤ p.val ∧ 0 ≤ h.val :=
  ⟨(Decimal.round_isNearest hp).le_of_le Decimal.zero_mem (by positivity),
    (Decimal.round_isNearest hh).le_of_le Decimal.zero_mem (by positivity)⟩

theorem verifySplit_eq_true_iff {p h u : Decimal} (hu : p.add h = some u) :
    BillingCalculator.verifySplit t p h = some true ↔ u.val = t.val := by
  rw [BillingCalculator.verifySplit, hu, Option.bind_eq_bind, Option.bind_some, Option.pure_def,
    Option.some.injEq, beq_iff_eq, eq_comm]

/-- The largest mantissa without decimals: the host part takes a half more, and the sum is
out of range. -/
theorem verifySplit_max (hm : m + 1 = 2 ^ 96) (ht : t.val = m / 10 ^ 0) {p h : Decimal}
    (hp : p.val = t.val * (1 / 10)) (hh : h.val = halfEven (((9 * m : ℤ) : ℚ) / 10) / 10 ^ 0) :
    BillingCalculator.verifySplit t p h = none := by
  obtain rfl : m = 2 ^ 96 - 1 := by omega
  have hhost : halfEven (((9 * (2 ^ 96 - 1) : ℤ) : ℚ) / 10) = 71305346262837903834189555302 := by
    rw [halfEven_div_ten]
    norm_num
  have hnone : p.add h = none := by
    rw [Option.eq_none_iff_forall_ne_some]
    intro u hu
    have hlt := Decimal.exists_round_iff.mp ⟨u, hu⟩
    rw [hp, ht, hh, hhost] at hlt
    norm_num [abs_of_pos] at hlt
  rw [BillingCalculator.verifySplit, hnone]
  rfl

/-- A total below the finest scale splits into its exact tenth and nine tenths rounded once,
and what the two add up to goes by the last digit of the mantissa. -/
theorem splitRevenue_coarse (h0 : 0 ≤ m) (hm : m < 2 ^ 96) (hs : s < 28)
    (ht : t.val = m / 10 ^ s) (hscale : Decimal.IsScale t.val s) :
    ∃ p h, BillingCalculator.splitRevenue t = some (p, h) ∧ 0 ≤ p.val ∧ 0 ≤ h.val ∧
      (BillingCalculator.verifySplit t p h = some true ↔ ¬ SplitTie t) := by
  have ht0 : 0 ≤ t.val := by
    have h0' : (0 : ℚ) ≤ m := by exact_mod_cast h0
    rw [ht]
    positivity
  have habs : |m| < 2 ^ 96 := by rwa [abs_of_nonneg h0]
  rw [splitTie_iff hscale ht]
  by_cases hbig : 9 * m < 2 ^ 96
  · obtain ⟨p, h, hp, hh, hsum⟩ := split_sum_exact h0 hbig hs ht
    obtain ⟨hp0, hh0⟩ := shares_nonneg ht0 hp hh
    refine ⟨p, h, splitRevenue_of_exact hp (platform_exact habs hs ht hp) hh, hp0, hh0, ?_⟩
    rw [verifySplit_eq_true_iff hsum]
    simp only [true_iff]
    omega
  · push Not at hbig
    by_cases hrange : s = 0 → m + 1 < 2 ^ 96
    · obtain ⟨p, h, u, hp, hh, hsum, huval⟩ := split_sum_coarse hm hbig hs hrange ht
      obtain ⟨hp0, hh0⟩ := shares_nonneg ht0 hp hh
      refine ⟨p, h, splitRevenue_of_exact hp (platform_exact habs hs ht hp) hh, hp0, hh0, ?_⟩
      rw [verifySplit_eq_true_iff hsum, huval, ht, div_left_inj' (by positivity), Int.cast_inj,
        clamp_splitMantissa_eq_iff h0 hm]
      omega
    · push Not at hrange
      obtain ⟨rfl, hmax⟩ := hrange
      obtain ⟨p, h, hp, hh, hpval, hhval⟩ := shares_coarse hm hbig hs ht
      obtain ⟨hp0, hh0⟩ := shares_nonneg ht0 hp hh
      refine ⟨p, h, splitRevenue_of_exact hp hpval hh, hp0, hh0, ?_⟩
      rw [verifySplit_max (by omega) ht hpval hhval]
      simp only [reduceCtorEq, false_iff, not_not]
      exact ⟨hs, by omega, hbig, hm, Or.inr trivial⟩

end Split

/-- **When the split adds up.** A total that is not negative is split without a panic into
two parts that are not negative, and they add up to the total exactly when it is no tie. -/
theorem split_revenue_adds_up_iff (total : Decimal) (h0 : 0 ≤ total.val) :
    ∃ platform host, BillingCalculator.splitRevenue total = some (platform, host) ∧
      0 ≤ platform.val ∧ 0 ≤ host.val ∧
      (BillingCalculator.verifySplit total platform host = some true ↔ ¬ SplitTie total) := by
  obtain ⟨s, m, hs, hm0, hm, ht⟩ := Decimal.exists_isScale_of_nonneg h0
  by_cases hfinest : s = 28
  · subst hfinest
    obtain ⟨p, h, hsplit, hp0, hh0, hsum⟩ := splitRevenue_finest hm0 hm ht
    refine ⟨p, h, hsplit, hp0, hh0, ?_⟩
    rw [verifySplit_eq_true_iff hsum, splitTie_iff hs ht]
    simp
  · exact splitRevenue_coarse hm0 hm (lt_of_le_of_ne hs.le hfinest) ht hs

/-- Ten and five units of the 27th decimal. -/
def tenAndFive : Decimal :=
  .lit 10000000000000000000000000005 27 (by decide)

theorem split_revenue_adds_up_iff_tenAndFive :
    ∃ platform host, BillingCalculator.splitRevenue tenAndFive = some (platform, host) ∧
      0 ≤ platform.val ∧ 0 ≤ host.val ∧
      (BillingCalculator.verifySplit tenAndFive platform host = some true ↔
        ¬ SplitTie tenAndFive) :=
  split_revenue_adds_up_iff tenAndFive (by decide +kernel)

/-- The parts of `tenAndFive` are a unit short of it. -/
theorem split_loses_unit :
    ¬ ∀ total : Decimal, 0 ≤ total.val →
      ∃ platform host, BillingCalculator.splitRevenue total = some (platform, host) ∧
        BillingCalculator.verifySplit total platform host = some true ∧
          0 ≤ platform.val ∧ 0 ≤ host.val := by
  intro hall
  obtain ⟨platform, host, hsplit, hverify, -⟩ := hall tenAndFive (by decide +kernel)
  have hfalse : (BillingCalculator.splitRevenue tenAndFive).bind
      (fun parts => BillingCalculator.verifySplit tenAndFive parts.1 parts.2) = some false := by
    decide +kernel
  rw [hsplit, Option.bind_some, hverify] at hfalse
  cases hfalse

end VaultKeeper
