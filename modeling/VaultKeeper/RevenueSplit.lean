import VaultKeeper.Billing

/-!
# Splitting a Cost between Platform and Hosts

A billing entry takes one tenth of its cost for the platform and nine tenths for the
hosts, each rounded on its own. The two roundings cancel unless both are ties, which
happens when the last digit of the cost's mantissa is 5 and the shares cannot take one
more decimal: the cost is at the finest scale of the format, or nine times its mantissa
is out of range. Ties go to the even mantissa on both sides, and the sum is one unit of
the mantissa away from the cost (`splitMantissa`).

## Main results

* `split_sum_iff`: when the shares of a decimal add up to it.
* `losesUnit_round_iff`: the condition on a cost, stated on the exact result it rounds.
* `verifySplit_calculateHourly_iff`: when an hourly billing entry splits without loss.
-/

namespace VaultKeeper

open Rounding

/-- The mantissa that the rounded shares of a mantissa add up to. -/
def splitMantissa (m : ℤ) : ℤ :=
  if m % 10 ≠ 5 then m else if m / 10 % 2 = 0 then m - 1 else m + 1

/-- Both shares of `m` units of a scale are ties, and their sum is in range. -/
def BothTie (m : ℤ) (s : ℕ) : Prop :=
  m % 10 = 5 ∧ m + 1 < 2 ^ 96 ∧ (s = 28 ∨ 2 ^ 96 ≤ 9 * m)

/-- Rounded to the precision of the format, the number is a mantissa of which both shares
are ties. -/
def LosesUnit (x : ℚ) : Prop :=
  ∃ (m : ℤ) (s : ℕ), s ≤ 28 ∧ BothTie m s ∧ |x * 10 ^ s - m| < 1 / 2

/-! ### Mantissas -/

/-- Both shares rounded to whole units. -/
theorem halfEven_shares (m : ℤ) :
    halfEven ((m : ℚ) / 10) + halfEven (((9 * m : ℤ) : ℚ) / 10) = splitMantissa m := by
  rw [halfEven_div_ten, halfEven_div_ten, splitMantissa]
  split_ifs <;> omega

/-- The exact platform share and the rounded host share, rounded when added. -/
theorem halfEven_platform_add_host (m : ℤ) :
    halfEven ((m : ℚ) / 10 + halfEven (((9 * m : ℤ) : ℚ) / 10)) = splitMantissa m := by
  have htenths : (m : ℚ) / 10 + halfEven (((9 * m : ℤ) : ℚ) / 10) =
      ((m + 10 * halfEven (((9 * m : ℤ) : ℚ) / 10) : ℤ) : ℚ) / 10 := by
    push_cast
    ring
  rw [htenths, halfEven_div_ten, halfEven_div_ten, splitMantissa]
  split_ifs <;> omega

/-- The sum of the shares is the mantissa again, unless a tie moved it within range. -/
theorem clamp_splitMantissa_eq_iff {m : ℤ} (h0 : 0 ≤ m) (hm : m < 2 ^ 96) :
    Decimal.clamp (splitMantissa m) = m ↔ ¬ (m % 10 = 5 ∧ m + 1 < 2 ^ 96) := by
  unfold Decimal.clamp splitMantissa
  split_ifs <;> omega

theorem splitMantissa_le (m : ℤ) : m - 1 ≤ splitMantissa m ∧ splitMantissa m ≤ m + 1 := by
  rw [splitMantissa]
  split_ifs <;> omega

/-- The rounded shares are in range. -/
theorem clamp_halfEven_div_ten {k : ℤ} (h0 : 0 ≤ k) (hk : k < 9 * 2 ^ 96) :
    Decimal.clamp (halfEven ((k : ℚ) / 10)) = halfEven ((k : ℚ) / 10) := by
  rw [halfEven_div_ten]
  refine Decimal.clamp_of_abs_lt ?_
  rw [abs_lt]
  split_ifs <;> omega

/-! ### Decimals -/

section Split

variable {t : Decimal} {m : ℤ} {s : ℕ}

/-- At the finest scale a number of tenths of a unit is rounded to whole units. -/
theorem share_finest {x : ℚ} {k : ℤ} (hx : x * 10 ^ 28 = (k : ℚ) / 10) (h0 : 0 ≤ k)
    (hk : k < 9 * 2 ^ 96) :
    ∃ p, Decimal.round x = some p ∧ p.val = halfEven ((k : ℚ) / 10) / 10 ^ 28 := by
  have h0' : (0 : ℚ) ≤ k := by exact_mod_cast h0
  have hk' : (k : ℚ) < 9 * 2 ^ 96 := by exact_mod_cast hk
  obtain ⟨p, hp, hpval⟩ := Decimal.exists_round_finest (x := x) (by
    rw [hx, abs_of_nonneg (by positivity)]
    linarith)
  rw [hx, clamp_halfEven_div_ten h0 hk] at hpval
  exact ⟨p, hp, hpval⟩

/-- At the finest scale both shares are rounded to whole units. -/
theorem split_sum_finest (h0 : 0 ≤ m) (hm : m < 2 ^ 96) (ht : t.val = m / 10 ^ 28) :
    ∃ p h u, Decimal.round (t.val * (1 / 10)) = some p ∧
      Decimal.round (t.val * (9 / 10)) = some h ∧ p.add h = some u ∧
        u.val = Decimal.clamp (splitMantissa m) / 10 ^ 28 := by
  obtain ⟨p, hp, hpval⟩ := share_finest (x := t.val * (1 / 10)) (k := m) (by rw [ht]; ring) h0
    (by omega)
  obtain ⟨h, hh, hhval⟩ := share_finest (x := t.val * (9 / 10)) (k := 9 * m)
    (by rw [ht]; push_cast; ring) (by omega) (by omega)
  have hsum : (p.val + h.val) * 10 ^ 28 = (splitMantissa m : ℚ) := by
    rw [← halfEven_shares, hpval, hhval]
    push_cast
    ring
  have hN := splitMantissa_le m
  have hlow : (-1 : ℚ) ≤ splitMantissa m := by exact_mod_cast (by omega : -1 ≤ splitMantissa m)
  have hhigh : (splitMantissa m : ℚ) ≤ 2 ^ 96 := by
    exact_mod_cast (by omega : splitMantissa m ≤ 2 ^ 96)
  obtain ⟨u, hu, huval⟩ := Decimal.exists_round_finest (x := p.val + h.val) (by
    rw [hsum, abs_lt]
    constructor <;> linarith)
  rw [hsum, halfEven_intCast] at huval
  exact ⟨p, h, u, hp, hh, hu, huval⟩

/-- At a coarser scale, with shares in range of the next one, nothing is rounded. -/
theorem split_sum_exact (h0 : 0 ≤ m) (hm : 9 * m < 2 ^ 96) (hs : s < 28)
    (ht : t.val = m / 10 ^ s) :
    ∃ p h, Decimal.round (t.val * (1 / 10)) = some p ∧
      Decimal.round (t.val * (9 / 10)) = some h ∧ p.add h = some t := by
  have hplatform : t.val * (1 / 10) ∈ Decimal.Representable :=
    ⟨m, s + 1, hs, by rw [abs_lt]; omega, by rw [ht, pow_succ (10 : ℚ)]; field_simp⟩
  have hhost : t.val * (9 / 10) ∈ Decimal.Representable :=
    ⟨9 * m, s + 1, hs, by rw [abs_lt]; omega, by
      rw [ht, pow_succ (10 : ℚ)]
      push_cast
      field_simp⟩
  refine ⟨_, _, Decimal.round_of_representable hplatform,
    Decimal.round_of_representable hhost, ?_⟩
  have hsum : t.val * (1 / 10) + t.val * (9 / 10) = t.val := by ring
  rw [Decimal.add, hsum]
  exact Decimal.round_of_representable t.representable

/-- At a coarser scale, with a host share out of range of the next one, the platform share is
exact and the host share is rounded to whole units. -/
theorem shares_coarse (hm : m < 2 ^ 96) (hbig : 2 ^ 96 ≤ 9 * m) (hs : s < 28)
    (ht : t.val = m / 10 ^ s) :
    ∃ p h, Decimal.round (t.val * (1 / 10)) = some p ∧
      Decimal.round (t.val * (9 / 10)) = some h ∧ p.val = t.val * (1 / 10) ∧
        h.val = halfEven (((9 * m : ℤ) : ℚ) / 10) / 10 ^ s := by
  have hm' : (m : ℚ) ≤ 2 ^ 96 - 1 := by exact_mod_cast (by omega : m ≤ 2 ^ 96 - 1)
  -- neither `2^96` nor `2^96 + 1` is a multiple of nine
  have hbig' : (2 ^ 96 + 2 : ℚ) ≤ 9 * m := by exact_mod_cast (by omega : 2 ^ 96 + 2 ≤ 9 * m)
  have hplatform : t.val * (1 / 10) ∈ Decimal.Representable :=
    ⟨m, s + 1, hs, by rw [abs_lt]; omega, by rw [ht, pow_succ (10 : ℚ)]; field_simp⟩
  have hhost : t.val * (9 / 10) * 10 ^ s = ((9 * m : ℤ) : ℚ) / 10 := by
    rw [ht]
    push_cast
    field_simp
  have hhostScale : Decimal.IsScale (t.val * (9 / 10)) s := by
    refine Decimal.isScale_of_units hs.le hhost (fun _ => ?_) ?_ ?_
    · push_cast
      linarith
    · push_cast
      linarith
    · push_cast
      linarith
  obtain ⟨h, hh, hhval⟩ := hhostScale.exists_round
  rw [hhost, clamp_halfEven_div_ten (by omega) (by omega)] at hhval
  exact ⟨_, h, Decimal.round_of_representable hplatform, hh, rfl, hhval⟩

/-- There the sum is rounded to whole units as well, unless it is out of range. -/
theorem split_sum_coarse (hm : m < 2 ^ 96) (hbig : 2 ^ 96 ≤ 9 * m) (hs : s < 28)
    (hrange : s = 0 → m + 1 < 2 ^ 96) (ht : t.val = m / 10 ^ s) :
    ∃ p h u, Decimal.round (t.val * (1 / 10)) = some p ∧
      Decimal.round (t.val * (9 / 10)) = some h ∧ p.add h = some u ∧
        u.val = Decimal.clamp (splitMantissa m) / 10 ^ s := by
  obtain ⟨p, h, hp, hh, hpval, hhval⟩ := shares_coarse hm hbig hs ht
  have hm' : (m : ℚ) < 2 ^ 96 := by exact_mod_cast hm
  have hbig' : (2 ^ 96 : ℚ) ≤ 9 * m := by exact_mod_cast hbig
  have hsum : (p.val + h.val) * 10 ^ s =
      (m : ℚ) / 10 + halfEven (((9 * m : ℤ) : ℚ) / 10) := by
    rw [hpval, ht, hhval]
    field_simp
  have hdist := abs_le.mp (abs_sub_halfEven_le (((9 * m : ℤ) : ℚ) / 10))
  have hhostCast : (((9 * m : ℤ) : ℚ) / 10) = 9 * m / 10 := by push_cast; ring
  have hsumScale : Decimal.IsScale (p.val + h.val) s := by
    refine Decimal.isScale_of_units hs.le hsum (fun hzero => ?_) ?_ ?_
    · have hlt : (m : ℚ) + 2 ≤ 2 ^ 96 := by
        have := hrange hzero
        exact_mod_cast (by omega : m + 2 ≤ 2 ^ 96)
      linarith
    · linarith
    · linarith
  obtain ⟨u, hu, huval⟩ := hsumScale.exists_round
  rw [hsum, halfEven_platform_add_host] at huval
  exact ⟨p, h, u, hp, hh, hu, huval⟩

/-- A number that rounds to a mantissa of which both shares are ties has the scale of the
mantissa. -/
theorem BothTie.isScale {x : ℚ} (hx : 0 ≤ x) (hs : s ≤ 28) (h : BothTie m s)
    (hdist : |x * 10 ^ s - m| < 1 / 2) : 0 ≤ m ∧ Decimal.IsScale x s := by
  obtain ⟨-, hrange, hfine⟩ := h
  have hdist' := abs_lt.mp hdist
  have hpos : 0 ≤ x * 10 ^ s := by positivity
  have hm0 : (-1 : ℚ) < m := by linarith
  have hm1 : (m : ℚ) + 2 ≤ 2 ^ 96 := by exact_mod_cast (by omega : m + 2 ≤ 2 ^ 96)
  refine ⟨by have : -1 < m := by exact_mod_cast hm0
             omega, hs, ?_, fun hzero => ?_, fun hlt => ?_⟩
  · rw [abs_of_nonneg hx]
    linarith
  · subst hzero
    rw [pow_zero, mul_one] at hdist'
    rw [abs_of_nonneg hx]
    linarith
  · have hbig : (2 ^ 96 : ℚ) ≤ 9 * m := by
      exact_mod_cast hfine.resolve_left (by omega)
    rw [abs_of_nonneg hx, pow_succ (10 : ℚ), ← mul_assoc]
    linarith

/-- For a decimal at its scale the condition is on its mantissa. -/
theorem losesUnit_iff_bothTie (h0 : 0 ≤ t.val) (hs : Decimal.IsScale t.val s)
    (ht : t.val = m / 10 ^ s) : LosesUnit t.val ↔ BothTie m s := by
  have hunits : ∀ j, s = j → t.val * 10 ^ j = m := by
    rintro _ rfl
    rw [ht, div_mul_cancel₀ _ (by positivity)]
  constructor
  · rintro ⟨k, j, hj, hk, hdist⟩
    obtain rfl : s = j := hs.unique (hk.isScale h0 hj hdist).2
    rw [hunits s rfl] at hdist
    have hmk : |m - k| < 1 := by
      have hlt : (|m - k| : ℚ) < 1 := by linarith
      exact_mod_cast hlt
    obtain rfl : m = k := by
      have := Int.abs_lt_one_iff.mp hmk
      omega
    exact hk
  · intro h
    refine ⟨m, s, hs.le, h, ?_⟩
    rw [hunits s rfl]
    norm_num

/-- **The shares of a decimal**: rounded apart they add up to it exactly when they are not
both ties. -/
theorem split_sum_iff (h0 : 0 ≤ t.val) (hle : t.val ≤ 10 ^ 27) :
    ∃ p h u, Decimal.round (t.val * (1 / 10)) = some p ∧
      Decimal.round (t.val * (9 / 10)) = some h ∧ p.add h = some u ∧
        (u.val = t.val ↔ ¬ LosesUnit t.val) := by
  obtain ⟨s, m, hs, hm0, hm, ht⟩ := Decimal.exists_isScale_of_nonneg h0
  have hpow : (0 : ℚ) < 10 ^ s := by positivity
  have hs1 : 1 ≤ s := by
    by_contra hzero
    obtain rfl : s = 0 := by omega
    have hfinest := hs.finest (by norm_num)
    rw [abs_of_nonneg h0] at hfinest
    norm_num at hfinest hle
    linarith
  -- both roundings end at the same mantissa, in and out of the finest scale
  have hsame : ∀ u : Decimal, u.val = Decimal.clamp (splitMantissa m) / 10 ^ s →
      (s = 28 ∨ 2 ^ 96 ≤ 9 * m) → (u.val = t.val ↔ ¬ LosesUnit t.val) := by
    intro u hu hfine
    rw [losesUnit_iff_bothTie h0 hs ht, hu, ht, div_left_inj' hpow.ne', Int.cast_inj,
      clamp_splitMantissa_eq_iff hm0 hm, BothTie]
    simp only [hfine, and_true]
  by_cases hfinest : s = 28
  · subst hfinest
    obtain ⟨p, h, u, hp, hh, hu, huval⟩ := split_sum_finest hm0 hm ht
    exact ⟨p, h, u, hp, hh, hu, hsame u huval (Or.inl rfl)⟩
  · have hlt : s < 28 := lt_of_le_of_ne hs.le hfinest
    by_cases hbig : 9 * m < 2 ^ 96
    · obtain ⟨p, h, hp, hh, hu⟩ := split_sum_exact hm0 hbig hlt ht
      refine ⟨p, h, t, hp, hh, hu, iff_of_true rfl ?_⟩
      rw [losesUnit_iff_bothTie h0 hs ht]
      rintro ⟨-, -, hfine | hfine⟩
      · exact hfinest hfine
      · omega
    · obtain ⟨p, h, u, hp, hh, hu, huval⟩ :=
        split_sum_coarse hm (not_lt.mp hbig) hlt (fun _ => by omega) ht
      exact ⟨p, h, u, hp, hh, hu, hsame u huval (Or.inr (not_lt.mp hbig))⟩

/-- Rounding a result does not change whether its shares are both ties. -/
theorem losesUnit_round_iff {x : ℚ} (hx : 0 ≤ x) (h : Decimal.round x = some t) :
    LosesUnit t.val ↔ LosesUnit x := by
  obtain ⟨s, hs, hval⟩ := Decimal.round_eq_some_iff.mp h
  have h0 : 0 ≤ t.val := (Decimal.round_isNearest h).le_of_le Decimal.zero_mem hx
  rw [losesUnit_iff_bothTie h0 (hs.of_round hx hval) hval]
  constructor
  · intro htie
    have hrange := htie.2.1
    have hdigit := htie.1
    have hpos : (-1 : ℚ) < halfEven (x * 10 ^ s) := by
      have hdist := abs_le.mp (abs_sub_halfEven_le (x * 10 ^ s))
      have hunits : 0 ≤ x * 10 ^ s := by positivity
      linarith
    have hpos' : -1 < halfEven (x * 10 ^ s) := by exact_mod_cast hpos
    have hclamp : Decimal.clamp (halfEven (x * 10 ^ s)) = halfEven (x * 10 ^ s) := by
      rw [Decimal.clamp] at hrange ⊢
      omega
    rw [hclamp] at htie hdigit
    exact ⟨_, s, hs.le, htie, abs_sub_halfEven_lt_of_odd (by omega)⟩
  · rintro ⟨m, j, hj, htie, hdist⟩
    obtain ⟨hm0, hscale⟩ := htie.isScale hx hj hdist
    obtain rfl : s = j := hs.unique hscale
    have hclamp : Decimal.clamp (halfEven (x * 10 ^ s)) = m := by
      rw [halfEven_eq_of_abs_lt hdist]
      have hrange := htie.2.1
      exact Decimal.clamp_of_abs_lt (by rw [abs_lt]; omega)
    rwa [hclamp]

end Split

/-! ### Hourly entries -/

/-- An entry for one hour takes its cost as it is, and its fees add up to the cost exactly
when they are not both ties. -/
theorem exists_entry {rate volume cost : Decimal} (hcost : rate.mul volume = some cost)
    (h0 : 0 ≤ cost.val) (hle : cost.val ≤ 10 ^ 27) (id : String) (accountId : AccountId)
    (timestamp : ℤ) (diskType replicationFactor : UInt32) (cushionEnabled : Bool) :
    ∃ entry, BillingEntry.new id accountId timestamp 1 volume rate diskType replicationFactor
        cushionEnabled = some entry ∧ entry.totalCost = cost ∧
      (entry.verifySplit = some true ↔ ¬ LosesUnit cost.val) := by
  obtain ⟨p, h, u, hp, hh, hu, hiff⟩ := split_sum_iff h0 hle
  have htotal : cost.mul (.fromU32 1) = some cost := by
    have hone : (Decimal.fromU32 1).val = 1 := by simp [Decimal.fromU32]
    rw [Decimal.mul, hone, mul_one]
    exact Decimal.round_of_representable cost.representable
  have hplatform : cost.mul platformShare = some p := by
    have hshare : platformShare.val = 1 / 10 := by norm_num [platformShare]
    rw [Decimal.mul, hshare, hp]
  have hhost : cost.mul hostShare = some h := by
    have hshare : hostShare.val = 9 / 10 := by norm_num [hostShare]
    rw [Decimal.mul, hshare, hh]
  obtain ⟨entry, hentry, hfees, hsum⟩ :
      ∃ entry, BillingEntry.new id accountId timestamp 1 volume rate diskType
        replicationFactor cushionEnabled = some entry ∧ entry.totalCost = cost ∧
          entry.platformFee.add entry.hostFee = some u := by
    simp only [BillingEntry.new, hcost, htotal, hplatform, hhost, Option.bind_eq_bind,
      Option.bind_some]
    exact ⟨_, rfl, rfl, hu⟩
  refine ⟨entry, hentry, hfees, ?_⟩
  rw [← hiff]
  simp [BillingEntry.verifySplit, hsum, hfees]

/-- An hourly entry is computed without overflow. Its cost is the exact rate times the rounded
volume, rounded once. -/
theorem exists_calculateHourly (env : Env) (accountId : AccountId)
    (dataVolumeBytes : UInt64) (diskType : DiskType) (replication : ReplicationFactor)
    (cushionEnabled : Bool) :
    ∃ entry volume,
      BillingCalculator.calculateHourly env accountId dataVolumeBytes diskType replication
          cushionEnabled = some entry ∧
        Decimal.round (dataVolumeBytes.toNat / 2 ^ 40) = some volume ∧ 0 ≤ volume.val ∧
          Decimal.round (exactHourlyRate diskType replication cushionEnabled * volume.val) =
            some entry.totalCost ∧
          (entry.verifySplit = some true ↔ ¬ LosesUnit entry.totalCost.val) := by
  obtain ⟨volume, hdiv, hround, hvol0, hvol⟩ := exists_volume dataVolumeBytes
  obtain ⟨rate, hrate, hrateVal⟩ := calculateHourlyRate_eq diskType replication cushionEnabled
  obtain ⟨hrate0, hrateLe⟩ := exactHourlyRate_mem diskType replication cushionEnabled
  rw [← hrateVal] at hrate0 hrateLe ⊢
  have hcost0 : 0 ≤ rate.val * volume.val := by positivity
  have hcostLe : rate.val * volume.val ≤ 10 ^ 27 := by
    calc rate.val * volume.val ≤ 2 ^ 32 * 2 ^ 24 := by gcongr
      _ ≤ 10 ^ 27 := by norm_num
  obtain ⟨cost, hcost⟩ := Decimal.round_isSome (x := rate.val * volume.val) (by
    rw [abs_of_nonneg hcost0]
    norm_num at hcostLe ⊢
    linarith)
  have hbound : (10 ^ 27 : ℚ) ∈ Decimal.Representable :=
    ⟨10 ^ 27, 0, by norm_num, by norm_num, by norm_num⟩
  have hnearest := Decimal.round_isNearest hcost
  obtain ⟨entry, hentry, rfl, hiff⟩ := exists_entry (show rate.mul volume = some cost from hcost)
    (hnearest.le_of_le Decimal.zero_mem hcost0) (hnearest.le_of_ge hbound hcostLe) env.txId
    accountId env.now diskType.toU32 replication.factor cushionEnabled
  refine ⟨entry, volume, ?_, hround, hvol0, hcost, hiff⟩
  simp only [BillingCalculator.calculateHourly, hdiv, hrate, Option.bind_eq_bind,
    Option.bind_some, hentry]

/-- **When an hourly entry splits without loss.** The entry is computed without overflow,
and its fees add up to its cost exactly when the exact rate times the volume does not
round to a mantissa of which both shares are ties. -/
theorem verifySplit_calculateHourly_iff (env : Env) (accountId : AccountId)
    (dataVolumeBytes : UInt64) (diskType : DiskType) (replication : ReplicationFactor)
    (cushionEnabled : Bool) :
    ∃ entry volume,
      BillingCalculator.calculateHourly env accountId dataVolumeBytes diskType replication
          cushionEnabled = some entry ∧
        Decimal.round (dataVolumeBytes.toNat / 2 ^ 40) = some volume ∧
          (entry.verifySplit = some true ↔
            ¬ LosesUnit (exactHourlyRate diskType replication cushionEnabled * volume.val)) := by
  obtain ⟨entry, volume, hentry, hround, hvol0, hcost, hiff⟩ := exists_calculateHourly env
    accountId dataVolumeBytes diskType replication cushionEnabled
  have hrate0 := (exactHourlyRate_mem diskType replication cushionEnabled).1
  exact ⟨entry, volume, hentry, hround,
    hiff.trans (not_congr (losesUnit_round_iff (by positivity) hcost))⟩

/-- One byte on one replica of a hard disk: the cost is `2728484105318785` units of the
finest scale, and its two shares add up to one unit less. -/
theorem one_byte_loses_unit :
    ¬ ∀ (env : Env) (accountId : AccountId) (dataVolumeBytes : UInt64) (diskType : DiskType)
      (replication : ReplicationFactor) (cushionEnabled : Bool),
      ∃ entry, BillingCalculator.calculateHourly env accountId dataVolumeBytes diskType
        replication cushionEnabled = some entry ∧ entry.verifySplit = some true := by
  intro hall
  obtain ⟨entry, hentry, hsplit⟩ := hall ⟨0, "entry-1", 0⟩ ⟨"user-1"⟩ 1 .hdd ⟨1⟩ false
  have hfalse : (BillingCalculator.calculateHourly ⟨0, "entry-1", 0⟩ ⟨"user-1"⟩ 1 .hdd ⟨1⟩
      false).bind BillingEntry.verifySplit = some false := by
    decide +kernel
  rw [hentry, Option.bind_some, hsplit] at hfalse
  cases hfalse

end VaultKeeper
