import VaultKeeper.Billing
import VaultKeeper.Runs

/-!
# Subscription Tiers

`billing/src/subscription.rs`. A change of the tier charges the new tier for the days that
are left and refunds the old one, and writes the end of the paid period anew: the whole days
that were left at one reading of the clock, counted from a second reading. What was left
beyond whole days is gone, and with it what passed between the two readings.

Instants and durations are in nanoseconds; each reading of `Utc::now()` is an argument.

## Main results

* `SubscriptionManager.changeTier_of_ne`: what a change to another tier leaves behind; it
  never panics.
* `autoRenew_of_active`: in a reachable state with an active subscription renewal is on.
* `period_kept_iff`: the runs of tier changes that keep the paid period.
-/

namespace VaultKeeper

/-- `Duration::days`. -/
def durationDays (d : ℤ) : ℤ :=
  d * 86400 * nanosPerSecond

/-- `Duration::num_days`: whole days, towards zero. -/
def numDays (d : ℤ) : ℤ :=
  d.tdiv (86400 * nanosPerSecond)

/-- Subscription tier. -/
inductive SubscriptionTier
  | archive
  | standard
  | premium
deriving DecidableEq

namespace SubscriptionTier

def priceMonthly : SubscriptionTier → Decimal
  | .archive => .lit 0 2 (by decide)
  | .standard => .lit 19900 2 (by decide)
  | .premium => .lit 49900 2 (by decide)

end SubscriptionTier

/-- Subscription state. -/
structure SubscriptionState where
  tier : SubscriptionTier
  startedAt : ℤ
  paidUntil : ℤ
  autoRenew : Bool
deriving DecidableEq

namespace SubscriptionState

/-- Whether the paid period is not over. -/
def isActive (s : SubscriptionState) (now : ℤ) : Bool :=
  now < s.paidUntil

/-- The whole days of the paid period that are left. -/
def daysRemaining (s : SubscriptionState) (now : ℤ) : ℤ :=
  max (numDays (s.paidUntil - now)) 0

end SubscriptionState

/-- How a change of the tier ended. -/
inductive TierResult
  | ok (netAmount : Decimal)
  | alreadyOn (tier : SubscriptionTier)
  | panic

/-- Subscription manager. -/
structure SubscriptionManager where
  current : SubscriptionState
deriving DecidableEq

namespace SubscriptionManager

/-- Create a new subscription manager with the free archive tier. -/
def new (now : ℤ) : SubscriptionManager where
  current := { tier := .archive, startedAt := now, paidUntil := now, autoRenew := false }

/-- Subscribe to a tier for 30 days. -/
def subscribe (_ : SubscriptionManager) (now : ℤ) (tier : SubscriptionTier) :
    SubscriptionManager where
  current :=
    { tier := tier, startedAt := now, paidUntil := now + durationDays 30, autoRenew := true }

/-- The net amount of a change with some days left: the charge of the new tier for them less
the refund of the old one. -/
def netAmount (oldTier newTier : SubscriptionTier) (remainingDays : UInt32) :
    Option Decimal := do
  let oldDaily ← oldTier.priceMonthly.div (.lit 30 0 (by decide))
  let refund ← oldDaily.mul (.fromU32 remainingDays)
  let newDaily ← newTier.priceMonthly.div (.lit 30 0 (by decide))
  let charge ← newDaily.mul (.fromU32 remainingDays)
  charge.sub refund

/-- Change the tier with pro-rata calculation. The days left are counted at the first reading
of the clock, and the new period starts at the second. The number of used days, which wraps
below zero, is read by nothing and left out. -/
def changeTier (m : SubscriptionManager) (countedAt changedAt : ℤ)
    (newTier : SubscriptionTier) : SubscriptionManager × TierResult :=
  let oldTier := m.current.tier
  if oldTier = newTier then (m, .alreadyOn newTier)
  else
    let remainingDays := UInt32.ofNat (m.current.daysRemaining countedAt).toNat
    match netAmount oldTier newTier remainingDays with
    | none => (m, .panic)
    | some net =>
        ({ current :=
            { tier := newTier, startedAt := m.current.startedAt
              paidUntil := changedAt + durationDays remainingDays.toNat, autoRenew := true } },
          .ok net)

/-! ### The amounts -/

/-- A tier costs at most 499 a month. -/
theorem priceMonthly_mem (tier : SubscriptionTier) :
    0 ≤ tier.priceMonthly.val ∧ tier.priceMonthly.val ≤ 499 := by
  cases tier <;> norm_num [SubscriptionTier.priceMonthly]

/-- The days of a tier have a price. -/
theorem exists_proRata (tier : SubscriptionTier) (days : UInt32) :
    ∃ daily amount, tier.priceMonthly.div (.lit 30 0 (by decide)) = some daily ∧
      daily.mul (.fromU32 days) = some amount ∧ 0 ≤ amount.val ∧ amount.val ≤ 2 ^ 37 := by
  obtain ⟨hprice0, hprice⟩ := priceMonthly_mem tier
  have hdays : (days.toNat : ℚ) ≤ 2 ^ 32 := by exact_mod_cast days.toNat_lt.le
  have hday0 : 0 ≤ tier.priceMonthly.val / 30 := by positivity
  have hday : tier.priceMonthly.val / 30 ≤ 17 := by linarith
  obtain ⟨daily, hdaily⟩ := Decimal.round_isSome (x := tier.priceMonthly.val / 30) (by
    rw [abs_of_nonneg hday0]
    linarith)
  have hseventeen : (17 : ℚ) ∈ Decimal.Representable :=
    ⟨17, 0, by norm_num, by norm_num, by norm_num⟩
  have hdaily0 := (Decimal.round_isNearest hdaily).le_of_le Decimal.zero_mem hday0
  have hdailyLe := (Decimal.round_isNearest hdaily).le_of_ge hseventeen hday
  have hamount0 : 0 ≤ daily.val * days.toNat := by positivity
  have hamountLe : daily.val * days.toNat ≤ 2 ^ 37 := by
    calc daily.val * days.toNat ≤ 17 * 2 ^ 32 := by gcongr
      _ ≤ 2 ^ 37 := by norm_num
  obtain ⟨amount, hamount⟩ := Decimal.round_isSome (x := daily.val * days.toNat) (by
    rw [abs_of_nonneg hamount0]
    linarith)
  have hbound : (2 ^ 37 : ℚ) ∈ Decimal.Representable :=
    ⟨2 ^ 37, 0, by norm_num, by norm_num, by norm_num⟩
  refine ⟨daily, amount, ?_, ?_, (Decimal.round_isNearest hamount).le_of_le Decimal.zero_mem
    hamount0, (Decimal.round_isNearest hamount).le_of_ge hbound hamountLe⟩
  · rw [Decimal.div, Decimal.lit_val, if_neg (by norm_num)]
    norm_num [hdaily]
  · rw [Decimal.mul, Decimal.fromU32, Decimal.ofNat_val, hamount]

/-- The net amount is computed without overflow. -/
theorem exists_netAmount (oldTier newTier : SubscriptionTier) (days : UInt32) :
    ∃ net, netAmount oldTier newTier days = some net := by
  obtain ⟨oldDaily, refund, hold, hrefund, hrefund0, hrefundLe⟩ := exists_proRata oldTier days
  obtain ⟨newDaily, charge, hnew, hcharge, hcharge0, hchargeLe⟩ := exists_proRata newTier days
  obtain ⟨net, hnet⟩ := Decimal.round_isSome (x := charge.val - refund.val) (by
    rw [abs_lt]
    constructor <;> linarith)
  refine ⟨net, ?_⟩
  simp only [netAmount, hold, hrefund, hnew, hcharge, Option.bind_eq_bind, Option.bind_some]
  exact hnet

/-- **A change to another tier** never panics, and leaves the whole days that were left. -/
theorem changeTier_of_ne {m : SubscriptionManager} {newTier : SubscriptionTier}
    (h : m.current.tier ≠ newTier) (countedAt changedAt : ℤ) :
    ∃ net, m.changeTier countedAt changedAt newTier =
      ({ current :=
          { tier := newTier, startedAt := m.current.startedAt
            paidUntil := changedAt +
              durationDays ((m.current.daysRemaining countedAt).toNat % 2 ^ 32 : ℕ)
            autoRenew := true } }, .ok net) := by
  obtain ⟨net, hnet⟩ := exists_netAmount m.current.tier newTier
    (UInt32.ofNat (m.current.daysRemaining countedAt).toNat)
  refine ⟨net, ?_⟩
  simp only [changeTier, if_neg h, hnet, UInt32.toNat_ofNat']

/-- A change to the current tier changes nothing. -/
theorem changeTier_of_eq {m : SubscriptionManager} {newTier : SubscriptionTier}
    (h : m.current.tier = newTier) (countedAt changedAt : ℤ) :
    m.changeTier countedAt changedAt newTier = (m, .alreadyOn newTier) :=
  if_pos h

end SubscriptionManager

/-! ### Runs -/

/-- A call of `change_tier`, with the two readings of the clock it makes. -/
structure TierChange where
  newTier : SubscriptionTier
  countedAt : ℤ
  changedAt : ℤ

/-- The manager after a change. -/
def changeStep (m : SubscriptionManager) (c : TierChange) : SubscriptionManager :=
  (m.changeTier c.countedAt c.changedAt c.newTier).1

/-- A call on a manager. -/
inductive SubscriptionCall
  | subscribe (now : ℤ) (tier : SubscriptionTier)
  | changeTier (c : TierChange)

/-- The manager after a call. -/
def subscriptionStep (m : SubscriptionManager) : SubscriptionCall → SubscriptionManager
  | .subscribe now tier => m.subscribe now tier
  | .changeTier c => changeStep m c

/-- What was paid for: the start and the end of the period, and whether it is renewed. -/
def SubscriptionManager.period (m : SubscriptionManager) : ℤ × ℤ × Bool :=
  (m.current.startedAt, m.current.paidUntil, m.current.autoRenew)

/-- At the second reading of the clock exactly the whole days are left that were left at the
first, as a 32-bit number, and renewal is on already. -/
def KeepsPeriod (m : SubscriptionManager) (c : TierChange) : Prop :=
  m.current.autoRenew = true ∧
    ∃ days : ℕ, m.current.paidUntil - c.changedAt = durationDays (days % 2 ^ 32 : ℕ) ∧
      (durationDays days ≤ m.current.paidUntil - c.countedAt ∨ days = 0) ∧
        m.current.paidUntil - c.countedAt < durationDays (days + 1)

/-- The whole days of a duration, none of a negative one. -/
theorem toNat_numDays_iff (d : ℤ) (days : ℕ) :
    (max (numDays d) 0).toNat = days ↔
      (durationDays days ≤ d ∨ days = 0) ∧ d < durationDays (days + 1) := by
  rw [numDays, durationDays, durationDays, nanosPerSecond]
  rcases le_or_gt 0 d with h | h
  · rw [Int.tdiv_eq_ediv_of_nonneg h]
    omega
  · have hmirror := Int.neg_tdiv (-d) (86400 * 1000000000)
    have hquot := Int.tdiv_nonneg (show 0 ≤ -d by omega)
      (by norm_num : (0 : ℤ) ≤ 86400 * 1000000000)
    rw [neg_neg] at hmirror
    omega

/-- One change keeps the period exactly when it meets the condition. -/
theorem period_changeStep_iff (m : SubscriptionManager) (c : TierChange) :
    (changeStep m c).period = m.period ↔ (m.current.tier ≠ c.newTier → KeepsPeriod m c) := by
  by_cases htier : m.current.tier = c.newTier
  · have hsame : changeStep m c = m := by
      rw [changeStep, SubscriptionManager.changeTier_of_eq htier]
    rw [hsame]
    exact iff_of_true rfl fun hne => absurd htier hne
  · obtain ⟨net, hchange⟩ :=
      SubscriptionManager.changeTier_of_ne htier c.countedAt c.changedAt
    have hdays := toNat_numDays_iff (m.current.paidUntil - c.countedAt)
    rw [changeStep, hchange]
    simp only [SubscriptionManager.period, Prod.mk.injEq, true_and, ne_eq, htier,
      not_false_eq_true, forall_const, KeepsPeriod, SubscriptionState.daysRemaining]
    constructor
    · rintro ⟨hpaid, hrenew⟩
      exact ⟨hrenew.symm, _, by omega, (hdays _).mp rfl⟩
    · rintro ⟨hrenew, days, hleft, hcount⟩
      rw [(hdays days).mpr hcount]
      exact ⟨by omega, hrenew.symm⟩

/-- **When tier changes keep what was paid for**: at every point of a run of changes the
period is that of the start exactly when every change to another tier meets the condition. -/
theorem period_kept_iff (m : SubscriptionManager) (changes : List TierChange) :
    (∀ earlier, earlier <+: changes → (earlier.foldl changeStep m).period = m.period) ↔
      ∀ v ∈ Runs.visits changeStep m changes,
        v.1.current.tier ≠ v.2.newTier → KeepsPeriod v.1 v.2 := by
  rw [Runs.prefix_iff changeStep SubscriptionManager.period]
  exact forall₂_congr fun v _ => period_changeStep_iff v.1 v.2

/-! ### Reachable states -/

/-- In every reachable state renewal is on, unless nothing was called but changes to the
current tier. -/
theorem reachable_cases (start : ℤ) (calls : List SubscriptionCall) :
    (calls.foldl subscriptionStep (.new start)).current.autoRenew = true ∨
      calls.foldl subscriptionStep (.new start) = .new start := by
  have hstep : ∀ (m : SubscriptionManager) (c : SubscriptionCall),
      m.current.autoRenew = true ∨ m = .new start →
        (subscriptionStep m c).current.autoRenew = true ∨ subscriptionStep m c = .new start := by
    intro m c hm
    cases c with
    | subscribe now tier => exact Or.inl rfl
    | changeTier c =>
        rw [subscriptionStep, changeStep]
        by_cases htier : m.current.tier = c.newTier
        · rw [SubscriptionManager.changeTier_of_eq htier]
          exact hm
        · obtain ⟨net, hchange⟩ :=
            SubscriptionManager.changeTier_of_ne htier c.countedAt c.changedAt
          rw [hchange]
          exact Or.inl rfl
  exact Runs.invariant_foldl subscriptionStep (G := fun _ _ => True)
    (I := fun m => m.current.autoRenew = true ∨ m = .new start)
    (fun m c hm _ => hstep m c hm) (Or.inr rfl) fun _ _ => trivial

/-- In a reachable state with an active subscription renewal is on, when the clock does not
go back before the start. -/
theorem autoRenew_of_active {start now : ℤ} (hnow : start ≤ now) {calls : List SubscriptionCall}
    (hactive : (calls.foldl subscriptionStep (.new start)).current.isActive now = true) :
    (calls.foldl subscriptionStep (.new start)).current.autoRenew = true := by
  rcases reachable_cases start calls with hrenew | hnew
  · exact hrenew
  · rw [hnew] at hactive
    have hlater : now < start := of_decide_eq_true hactive
    omega

/-- A subscription of 30 days, changed at once: with a nanosecond gone only 29 whole days are
left, and the period ends a day early. -/
theorem period_cut_short :
    ¬ ∀ (start : ℤ) (calls : List SubscriptionCall) (changes : List TierChange),
      (∀ c ∈ changes, (calls.foldl subscriptionStep (.new start)).current.isActive
        c.countedAt = true) →
      ∀ earlier, earlier <+: changes →
        (earlier.foldl changeStep (calls.foldl subscriptionStep (.new start))).period =
          (calls.foldl subscriptionStep (.new start)).period := by
  intro hall
  have hperiod := hall 0 [.subscribe 0 .standard] [⟨.premium, 1, 1⟩] (by decide)
    [⟨.premium, 1, 1⟩] (List.prefix_refl _)
  rw [List.foldl_cons, List.foldl_nil, period_changeStep_iff] at hperiod
  obtain ⟨-, days, hleft, -⟩ := hperiod (by decide)
  change 0 + durationDays 30 - 1 = durationDays (days % 2 ^ 32 : ℕ) at hleft
  rw [durationDays, durationDays, nanosPerSecond] at hleft
  omega

end VaultKeeper
