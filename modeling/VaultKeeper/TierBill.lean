import VaultKeeper.ProRata

/-!
# The Bill of a Subscription

`billing/src/subscription.rs`: a subscription is for 30 days at the monthly price of its tier,
and `change_tier` returns what a change costs: the new tier for the days that are left, less the
old one for the same days. Both are rounded, and the days are counted anew at every change from
an end of the period that the change before it wrote.

The abstract side is a bill by days: each tier costs a thirtieth of its monthly price for every
day that was begun under it, and the last one for the days that are left.

## Main results

* `netAmount_near`: what one change costs.
* `toNat_daysRemaining`: the days that are left when days of a period were begun.
* `tier_changes_billed`: the amounts of a run of changes are the bill by days.
-/

namespace VaultKeeper

/-- The price of a day of a tier. -/
def SubscriptionTier.dailyPrice (tier : SubscriptionTier) : ℚ :=
  tier.priceMonthly.val / 30

/-- The days begun from one instant to another. -/
def daysBegun (since now : ℤ) : ℕ :=
  (-((since - now) / (86400 * nanosPerSecond))).toNat

/-- The bill by days of a tier, of which some days are left from an instant on, and of the tiers
that it is changed to. -/
def billByDays (tier : SubscriptionTier) (left : ℕ) (since : ℤ) : List TierChange → ℚ
  | [] => tier.dailyPrice * left
  | c :: rest =>
      if tier = c.newTier then billByDays tier left since rest
      else
        let begun := daysBegun since c.countedAt
        tier.dailyPrice * (min left begun : ℕ) +
          billByDays c.newTier (left - begun) c.changedAt rest

/-- The amount that a change returns. -/
def TierResult.amount : TierResult → ℚ
  | .ok netAmount => netAmount.val
  | _ => 0

/-- The amounts that the changes of a run return together. -/
def SubscriptionManager.netAmounts (m : SubscriptionManager) : List TierChange → ℚ
  | [] => 0
  | c :: rest =>
      (m.changeTier c.countedAt c.changedAt c.newTier).2.amount + (changeStep m c).netAmounts rest

/-- The days of a period that were begun, and those that are left of it. -/
theorem cast_eq_begun_add_left (left begun : ℕ) :
    (left : ℚ) = (min left begun : ℕ) + (left - begun : ℕ) := by
  rw [← Nat.cast_add]
  congr 1
  omega

/-! ### One change -/

theorem SubscriptionTier.dailyPrice_mem (tier : SubscriptionTier) :
    0 ≤ tier.dailyPrice ∧ tier.dailyPrice ≤ 499 / 30 := by
  cases tier <;> norm_num [dailyPrice, priceMonthly]

/-- The rounded price of a rounded day, for no more days than a month has. -/
theorem exists_proRata_near (tier : SubscriptionTier) {days : UInt32} (hdays : days.toNat ≤ 30) :
    ∃ daily amount, tier.priceMonthly.div (.lit 30 0 (by decide)) = some daily ∧
      daily.mul (.fromU32 days) = some amount ∧
        |amount.val - tier.dailyPrice * days.toNat| ≤ 2 / 10 ^ 26 := by
  obtain ⟨hprice0, hprice⟩ := tier.dailyPrice_mem
  have hdays0 : (0 : ℚ) ≤ days.toNat := Nat.cast_nonneg _
  have hdays' : (days.toNat : ℚ) ≤ 30 := by exact_mod_cast hdays
  obtain ⟨daily, hdaily, hday⟩ := Decimal.exists_round_near (s := 27) (x := tier.dailyPrice)
    (by decide) (by
      rw [abs_of_nonneg hprice0]
      linarith)
  have hproduct : |daily.val * days.toNat - tier.dailyPrice * days.toNat| ≤
      1 / (2 * 10 ^ 27) * 30 := by
    rw [← sub_mul, abs_mul, abs_of_nonneg hdays0]
    gcongr
  have hexact : tier.dailyPrice * days.toNat ≤ 499 / 30 * 30 := by gcongr
  have hexact0 : 0 ≤ tier.dailyPrice * days.toNat := mul_nonneg hprice0 hdays0
  obtain ⟨amount, hamount, hnear⟩ := Decimal.exists_round_near (s := 26)
    (x := daily.val * days.toNat) (by decide) (by
      have hsize : |daily.val * days.toNat| ≤ 500 := by
        rw [abs_le] at hproduct ⊢
        constructor <;> linarith
      linarith)
  refine ⟨daily, amount, ?_, ?_, ?_⟩
  · rw [Decimal.div, Decimal.lit_val, if_neg (by norm_num)]
    norm_num [← hdaily, SubscriptionTier.dailyPrice]
  · rw [Decimal.mul, Decimal.fromU32, Decimal.ofNat_val, hamount]
  · rw [abs_le] at hproduct hnear ⊢
    constructor <;> linarith

/-- **The amount of one change** is the difference of the daily prices for the days that are
left, but for a rounding error. -/
theorem netAmount_near (oldTier newTier : SubscriptionTier) {days : UInt32}
    (hdays : days.toNat ≤ 30) :
    ∃ net, SubscriptionManager.netAmount oldTier newTier days = some net ∧
      |net.val - (newTier.dailyPrice - oldTier.dailyPrice) * days.toNat| ≤ 1 / 10 ^ 25 := by
  obtain ⟨oldDaily, refund, hold, hrefund, hrefundNear⟩ := exists_proRata_near oldTier hdays
  obtain ⟨newDaily, charge, hnew, hcharge, hchargeNear⟩ := exists_proRata_near newTier hdays
  have hdays' : (days.toNat : ℚ) ≤ 30 := by exact_mod_cast hdays
  have hprice : ∀ tier : SubscriptionTier,
      0 ≤ tier.dailyPrice * days.toNat ∧ tier.dailyPrice * days.toNat ≤ 499 / 30 * 30 := by
    intro tier
    obtain ⟨hprice0, hprice⟩ := tier.dailyPrice_mem
    exact ⟨by positivity, by gcongr⟩
  rw [abs_le] at hrefundNear hchargeNear
  obtain ⟨net, hnet, hnear⟩ := Decimal.exists_round_near (s := 26)
    (x := charge.val - refund.val) (by decide) (by
      have hsize : |charge.val - refund.val| ≤ 500 := by
        rw [abs_le]
        constructor <;> linarith [hprice oldTier, hprice newTier]
      linarith)
  refine ⟨net, ?_, ?_⟩
  · simp only [SubscriptionManager.netAmount, hold, hrefund, hnew, hcharge, Option.bind_eq_bind,
      Option.bind_some]
    exact hnet
  · rw [abs_le] at hnear ⊢
    rw [sub_mul]
    constructor <;> linarith

/-- Of the days that a period had left at an instant, those begun since are gone. -/
theorem toNat_daysRemaining {s : SubscriptionState} {since now : ℤ} {left : ℕ}
    (hpaid : s.paidUntil = since + durationDays left) (hnow : since ≤ now) :
    (s.daysRemaining now).toNat = left - daysBegun since now := by
  rw [SubscriptionState.daysRemaining, toNat_numDays_iff, hpaid]
  simp only [durationDays, daysBegun, nanosPerSecond]
  omega

/-! ### Runs -/

/-- A tier of a period, some days of which are left from an instant on. -/
structure SubscriptionManager.Has (m : SubscriptionManager) (tier : SubscriptionTier) (left : ℕ)
    (since : ℤ) : Prop where
  tier : m.current.tier = tier
  paidUntil : m.current.paidUntil = since + durationDays left
  left : left ≤ 30

/-- **A change to another tier** leaves the days that were not begun, and returns the difference
of the daily prices for them. -/
theorem SubscriptionManager.Has.changeTier {m : SubscriptionManager} {tier : SubscriptionTier}
    {left : ℕ} {since : ℤ} (h : m.Has tier left since) (c : TierChange)
    (htier : tier ≠ c.newTier) (hnow : since ≤ c.countedAt) :
    (changeStep m c).Has c.newTier (left - daysBegun since c.countedAt) c.changedAt ∧
      |(m.changeTier c.countedAt c.changedAt c.newTier).2.amount -
          (c.newTier.dailyPrice - tier.dailyPrice) * (left - daysBegun since c.countedAt : ℕ)| ≤
        1 / 10 ^ 25 := by
  have hleft := h.left
  have hdays : (UInt32.ofNat (m.current.daysRemaining c.countedAt).toNat).toNat =
      left - daysBegun since c.countedAt := by
    rw [toNat_daysRemaining h.paidUntil hnow, UInt32.toNat_ofNat']
    exact Nat.mod_eq_of_lt (by omega)
  obtain ⟨net, hnet, hnear⟩ := netAmount_near tier c.newTier (hdays.trans_le (by omega))
  have hchange : m.changeTier c.countedAt c.changedAt c.newTier =
      ({ current :=
          { tier := c.newTier, startedAt := m.current.startedAt
            paidUntil := c.changedAt + durationDays (left - daysBegun since c.countedAt : ℕ)
            autoRenew := true } }, .ok net) := by
    rw [SubscriptionManager.changeTier, h.tier, if_neg htier]
    simp only [hnet, hdays]
  rw [changeStep, hchange]
  rw [hdays] at hnear
  exact ⟨⟨rfl, rfl, by omega⟩, hnear⟩

/-- The readings of a clock that does not go back, around the first change of a run. -/
theorem clockReadings_cons {since : ℤ} {c : TierChange} {rest : List TierChange}
    (hclock : (clockReadings since ((c :: rest).map .changeTier)).Pairwise (· ≤ ·)) :
    since ≤ c.countedAt ∧
      (clockReadings since (rest.map .changeTier)).Pairwise (· ≤ ·) ∧
      (clockReadings c.changedAt (rest.map .changeTier)).Pairwise (· ≤ ·) := by
  simp only [clockReadings, List.map_cons, List.flatMap_cons, SubscriptionCall.readings,
    List.cons_append, List.nil_append, List.pairwise_cons] at hclock ⊢
  obtain ⟨hsince, -, hchanged, hrest⟩ := hclock
  exact ⟨hsince _ (List.mem_cons_self ..), ⟨fun t ht => hsince t (by simp [ht]), hrest⟩,
    hchanged, hrest⟩

/-- The days that are left and the changes to come cost what the bill says. Induction on the
changes; one to another tier begins a new period of the days that are left. -/
theorem netAmounts_near {m : SubscriptionManager} {tier : SubscriptionTier} {left : ℕ} {since : ℤ}
    (h : m.Has tier left since) (changes : List TierChange)
    (hclock : (clockReadings since (changes.map .changeTier)).Pairwise (· ≤ ·)) :
    |tier.dailyPrice * left + m.netAmounts changes - billByDays tier left since changes| ≤
      changes.length / 10 ^ 25 := by
  induction changes generalizing m tier left since with
  | nil => simp [SubscriptionManager.netAmounts, billByDays]
  | cons c rest ih =>
      obtain ⟨hnow, hkept, hchanged⟩ := clockReadings_cons hclock
      rw [SubscriptionManager.netAmounts, billByDays, List.length_cons, Nat.cast_succ, add_div]
      by_cases htier : tier = c.newTier
      · have hsame := SubscriptionManager.changeTier_of_eq (h.tier.trans htier) c.countedAt
          c.changedAt
        have hrest := ih h hkept
        have hzero : (TierResult.alreadyOn c.newTier).amount = 0 := rfl
        rw [changeStep, hsame, if_pos htier, hzero, zero_add]
        have hstep : (0 : ℚ) ≤ 1 / 10 ^ 25 := by positivity
        linarith
      · obtain ⟨hnext, hamount⟩ := h.changeTier c htier hnow
        have hrest := ih hnext hchanged
        rw [if_neg htier, cast_eq_begun_add_left left (daysBegun since c.countedAt)]
        rw [abs_le] at hamount hrest ⊢
        constructor <;> linarith

/-- The bill by days is between the cheapest and the dearest of its tiers. -/
theorem billByDays_mem {lo hi : ℚ} (changes : List TierChange) (tier : SubscriptionTier)
    (left : ℕ) (since : ℤ)
    (hprices : ∀ t ∈ tier :: changes.map TierChange.newTier,
      lo ≤ t.dailyPrice ∧ t.dailyPrice ≤ hi) :
    lo * left ≤ billByDays tier left since changes ∧
      billByDays tier left since changes ≤ hi * left := by
  induction changes generalizing tier left since with
  | nil =>
      obtain ⟨hlo, hhi⟩ := hprices tier (List.mem_cons_self ..)
      rw [billByDays]
      exact ⟨by gcongr, by gcongr⟩
  | cons c rest ih =>
      rw [List.map_cons] at hprices
      obtain ⟨hlo, hhi⟩ := hprices tier (List.mem_cons_self ..)
      rw [billByDays]
      split
      · exact ih tier left since fun t ht => hprices t (by
          rcases List.mem_cons.mp ht with rfl | ht
          · exact List.mem_cons_self ..
          · exact List.mem_cons_of_mem _ (List.mem_cons_of_mem _ ht))
      · obtain ⟨hlo', hhi'⟩ := ih c.newTier (left - daysBegun since c.countedAt) c.changedAt
          fun t ht => hprices t (List.mem_cons_of_mem _ ht)
        rw [cast_eq_begun_add_left left (daysBegun since c.countedAt), mul_add, mul_add]
        exact ⟨add_le_add (by gcongr) hlo', add_le_add (by gcongr) hhi'⟩

/-- **Tier changes are paid by the day**: the monthly price of a subscription and the amounts
that the changes after it return add up to the bill by days, but for a rounding error for each
change. So no order of changes costs less than a month of the cheapest of its tiers or more than
a month of the dearest. -/
theorem tier_changes_billed (m : SubscriptionManager) (now : ℤ) (tier : SubscriptionTier)
    (changes : List TierChange)
    (hclock : (clockReadings now (changes.map .changeTier)).Pairwise (· ≤ ·)) :
    let paid := tier.priceMonthly.val + (m.subscribe now tier).netAmounts changes
    |paid - billByDays tier 30 now changes| ≤ changes.length / 10 ^ 25 ∧
      ∀ cheapest dearest : SubscriptionTier,
        (∀ t ∈ tier :: changes.map TierChange.newTier,
          cheapest.priceMonthly.val ≤ t.priceMonthly.val ∧
            t.priceMonthly.val ≤ dearest.priceMonthly.val) →
          cheapest.priceMonthly.val - changes.length / 10 ^ 25 ≤ paid ∧
            paid ≤ dearest.priceMonthly.val + changes.length / 10 ^ 25 := by
  intro paid
  have hmonth : ∀ t : SubscriptionTier, t.dailyPrice * (30 : ℕ) = t.priceMonthly.val := by
    intro t
    rw [SubscriptionTier.dailyPrice]
    push_cast
    ring
  have hhas : (m.subscribe now tier).Has tier 30 now := ⟨rfl, rfl, le_rfl⟩
  have hnear := netAmounts_near hhas changes hclock
  rw [hmonth tier] at hnear
  refine ⟨hnear, fun cheapest dearest hprices => ?_⟩
  have hdaily : ∀ t ∈ tier :: changes.map TierChange.newTier,
      cheapest.dailyPrice ≤ t.dailyPrice ∧ t.dailyPrice ≤ dearest.dailyPrice := by
    intro t ht
    obtain ⟨hlo, hhi⟩ := hprices t ht
    rw [SubscriptionTier.dailyPrice, SubscriptionTier.dailyPrice, SubscriptionTier.dailyPrice]
    exact ⟨by gcongr, by gcongr⟩
  obtain ⟨hlo, hhi⟩ := billByDays_mem changes tier 30 now hdaily
  rw [hmonth] at hlo hhi
  rw [abs_le] at hnear
  constructor <;> linarith

/-- A standard subscription that is changed to premium at once: one day of it was begun, and the
month costs ten less than a premium one. -/
theorem tier_changes_billed_upgrade :
    |SubscriptionTier.standard.priceMonthly.val +
        ((SubscriptionManager.new 0).subscribe 0 .standard).netAmounts [⟨.premium, 1, 2⟩] - 489| ≤
      1 / 10 ^ 25 := by
  have hbill : billByDays .standard 30 0 [⟨.premium, 1, 2⟩] = 489 := by decide +kernel
  have hnear := (tier_changes_billed (.new 0) 0 .standard [⟨.premium, 1, 2⟩] (by decide)).1
  rwa [hbill, List.length_singleton, Nat.cast_one] at hnear

end VaultKeeper
