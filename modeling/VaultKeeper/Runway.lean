import VaultKeeper.AccountLog
import VaultKeeper.HourlyPricing

/-!
# How Long a Balance Lasts

`billing/src/calculator.rs` over `billing/src/account.rs`: an account is charged the same
amount hour after hour, and the calculator tells for how many hours its balance lasts and what
a day and a month of them take. Each charge may round the balance, by at most half a unit of
its scale, so that the hour of the freeze is known to within the errors that have added up by
then; where nothing rounds, the hour is the one the calculator tells.

## Main results

* `charged_run`: what hourly charges leave, when each is a bounded error away from exact.
* `freeze_hour`: the hour of the freeze for all amounts of a scale.
* `estimates_agree`: the estimates of the calculator and the charges of an entry.
-/

namespace VaultKeeper

/-- `Decimal::MAX`. -/
def Decimal.max : Decimal :=
  .lit (2 ^ 96 - 1) 0 (by decide)

/-- Hours in a billing period. -/
def hoursPerDay : Decimal :=
  .lit 24 0 (by decide)

namespace BillingCalculator

/-- Calculate the daily cost from the hourly rate and the data volume. -/
def dailyCost (hourlyRate dataVolumeTb : Decimal) : Option Decimal := do
  let hourlyCost ← hourlyRate.mul dataVolumeTb
  hourlyCost.mul hoursPerDay

/-- Calculate the monthly cost (30 days) from the daily cost. -/
def monthlyCost (dailyCost : Decimal) : Option Decimal :=
  dailyCost.mul (.ofNat 30 (by decide))

/-- Whether the balance is sufficient for continued service. -/
def isBalanceSufficient (balance : Decimal) : Bool :=
  0 < balance.val

/-- Calculate the remaining service hours at the current spend rate. -/
def remainingHours (balance hourlyRate dataVolumeTb : Decimal) : Option Decimal := do
  let hourlyCost ← hourlyRate.mul dataVolumeTb
  if hourlyCost.val = 0 then pure .max else balance.div hourlyCost

end BillingCalculator

/-! ### Hourly charges -/

/-- The charge of an hour. -/
def chargeHour (cost : Decimal) (a : BillingAccount) (hour : Env × String) : BillingAccount :=
  callStep a (hour.1, .charge cost hour.2)

variable {a : BillingAccount} {cost : Decimal}

theorem chargeHour_of_sub {balance : Decimal} (hpos : 0 < cost.val)
    (hsub : a.balance.sub cost = some balance) (hour : Env × String) :
    (chargeHour cost a hour).balance = balance ∧
      (chargeHour cost a hour).freezeManager =
        if balance.val ≤ 0 then a.freezeManager.triggerFreeze hour.1.freezeNow
        else a.freezeManager := by
  rw [chargeHour, callStep, AccountOp.apply, BillingAccount.charge, if_neg (not_le.mpr hpos), hsub]
  dsimp only [BillingAccount.recordTransaction]
  split
  · exact ⟨rfl, rfl⟩
  · exact ⟨rfl, rfl⟩

/-- A charge of nothing is refused. -/
theorem chargeHour_of_nonpos (hcost : cost.val ≤ 0) (hour : Env × String) :
    chargeHour cost a hour = a := by
  rw [chargeHour, callStep, AccountOp.apply, BillingAccount.charge, if_pos hcost]

/-- A frozen account stays frozen since the same instant. -/
theorem chargeHour_frozen (hfrozen : a.freezeManager.state = .frozenExport) (cost : Decimal)
    (hour : Env × String) :
    (chargeHour cost a hour).freezeManager = a.freezeManager := by
  rcases (AccountOp.charge cost hour.2).apply_freezeManager a hour.1 with hsame | htrigger
  · exact hsame
  · rw [chargeHour, callStep, htrigger, FreezeManager.triggerFreeze, if_neg]
    rw [hfrozen]
    exact FreezeState.noConfusion

/-- What hourly charges that are at most `u` away from exact have made of an account: it is
active, and the errors have added up; or it froze at one of the hours, at the time that its
charge read for it, and this is the hour the exact balance is used up in but for the errors
until then. -/
def ChargedWithin (a : BillingAccount) (cost : Decimal) (u : ℚ) (hours : List (Env × String))
    (b : BillingAccount) : Prop :=
  (b.freezeManager.state = .active ∧ 0 < b.balance.val ∧
      |b.balance.val - (a.balance.val - hours.length * cost.val)| ≤ hours.length * u) ∨
    (b.freezeManager.state = .frozenExport ∧ ∃ (k : ℕ) (hour : Env × String),
      hours[k]? = some hour ∧ b.freezeManager.frozenAt = some hour.1.freezeNow ∧
        k * (cost.val - u) < a.balance.val ∧ a.balance.val ≤ (k + 1) * (cost.val + u))

/-- **Hourly charges**: as long as each charge of an active account is at most `u` away from
exact, all of them together are as many times `u` away. -/
theorem charged_run (hactive : a.freezeManager.state = .active) (h0 : 0 < a.balance.val)
    (hpos : 0 < cost.val) {u : ℚ} (hours : List (Env × String))
    (herror : ∀ k < hours.length, ∀ d : Decimal, 0 < d.val → d.val ≤ a.balance.val →
      |d.val - (a.balance.val - k * cost.val)| ≤ k * u →
        ∃ e, d.sub cost = some e ∧ |e.val - (d.val - cost.val)| ≤ u) :
    ChargedWithin a cost u hours (hours.foldl (chargeHour cost) a) ∧
      ((hours.foldl (chargeHour cost) a).freezeManager.state = .active →
        (hours.foldl (chargeHour cost) a).balance.val ≤ a.balance.val) := by
  induction hours using List.reverseRecOn with
  | nil => exact ⟨Or.inl ⟨hactive, h0, by simp⟩, fun _ => le_rfl⟩
  | append_singleton hours hour ih =>
      have hlength : (hours ++ [hour]).length = hours.length + 1 := by simp
      rw [hlength] at herror
      obtain ⟨hwithin, hle⟩ := ih fun k hk => herror k (Nat.lt_succ_of_lt hk)
      rw [List.foldl_append, List.foldl_cons, List.foldl_nil]
      generalize hours.foldl (chargeHour cost) a = b at hwithin hle
      rcases hwithin with ⟨hb, hb0, hdist⟩ | ⟨hb, k, first, hk, hfirst, hlow, hhigh⟩
      · obtain ⟨e, hsub, herr⟩ :=
          herror hours.length (Nat.lt_succ_self _) b.balance hb0 (hle hb) hdist
        obtain ⟨hbalance, hmanager⟩ := chargeHour_of_sub hpos hsub hour
        rw [abs_le] at hdist herr
        by_cases he : e.val ≤ 0
        · rw [if_pos he, FreezeManager.triggerFreeze, if_pos hb] at hmanager
          refine ⟨Or.inr ⟨by rw [hmanager], hours.length, hour, by simp, by rw [hmanager], ?_, ?_⟩,
            fun hstate => ?_⟩
          · linarith
          · linarith
          · rw [hmanager] at hstate
            cases hstate
        · rw [if_neg he] at hmanager
          refine ⟨Or.inl ⟨hmanager ▸ hb, hbalance ▸ not_le.mp he, ?_⟩, fun _ => ?_⟩
          · rw [hbalance, hlength, abs_le]
            push_cast
            constructor <;> linarith
          · rw [hbalance]
            exact ((Decimal.round_isNearest hsub).le_of_ge b.balance.representable
              (by linarith)).trans (hle hb)
      · have hsame := chargeHour_frozen hb cost hour
        refine ⟨Or.inr ⟨by rw [hsame, hb], k, first, ?_, by rw [hsame, hfirst], hlow, hhigh⟩,
          fun hstate => ?_⟩
        · rw [List.getElem?_append_left (List.getElem?_eq_some_iff.mp hk).1, hk]
        · rw [hsame, hb] at hstate
          cases hstate

/-- **The hour of the freeze**: an account with a balance and a cost in the range of a scale
that is charged hour after hour freezes within half a unit of the scale for each hour of where
the exact balance is used up. So it may store until then, and is frozen from then on. -/
theorem freeze_hour (hactive : a.freezeManager.state = .active) (h0 : 0 < a.balance.val)
    (hpos : 0 < cost.val) {s : ℕ} (hs : s ≤ 28) (hbalance : a.balance.val * 10 ^ s ≤ 2 ^ 96 - 1)
    (hcost : cost.val * 10 ^ s ≤ 2 ^ 96 - 1) (hours : List (Env × String)) :
    let b := hours.foldl (chargeHour cost) a
    let u := 1 / (2 * 10 ^ s)
    ChargedWithin a cost u hours b ∧
      (hours.length * (cost.val + u) < a.balance.val → b.canStore = true) ∧
      (a.balance.val ≤ hours.length * (cost.val - u) →
        b.freezeManager.state = .frozenExport) := by
  intro b u
  have hu : 0 ≤ u := by positivity
  obtain ⟨hwithin, -⟩ := charged_run (u := u) hactive h0 hpos hours fun k _ d hd hle _ => by
    refine Decimal.exists_round_near hs ?_
    have hpow : (0 : ℚ) < 10 ^ s := by positivity
    have hd' : d.val * 10 ^ s ≤ a.balance.val * 10 ^ s := by gcongr
    have hd0 : 0 < d.val * 10 ^ s := by positivity
    have hcost0 : 0 < cost.val * 10 ^ s := by positivity
    rw [← abs_of_pos hpow, ← abs_mul, sub_mul, abs_le]
    constructor <;> linarith
  refine ⟨hwithin, fun hlast => ?_, fun hused => ?_⟩
  · rcases hwithin with ⟨hstate, hleft, -⟩ | ⟨-, k, hour, hk, -, -, hhigh⟩
    · rw [BillingAccount.canStore, decide_eq_true_eq]
      exact ⟨hstate, hleft⟩
    · have hlt : ((k + 1 : ℕ) : ℚ) ≤ hours.length :=
        Nat.cast_le.mpr (List.getElem?_eq_some_iff.mp hk).1
      push_cast at hlt
      have hmul : (k + 1 : ℚ) * (cost.val + u) ≤ hours.length * (cost.val + u) := by gcongr
      linarith
  · rcases hwithin with ⟨-, hleft, hdist⟩ | ⟨hstate, -⟩
    · rw [abs_le] at hdist
      linarith
    · exact hstate

/-- A third of a rouble, to 28 decimals, charged for three hours leaves of a hundred what it
should but for three half units of the scale. -/
theorem freeze_hour_third :
    let third := Decimal.lit 3333333333333333333333333333 28 (by decide)
    ChargedWithin accountOf100 third (1 / (2 * 10 ^ 26)) (List.replicate 3 (⟨1, "tx", 1⟩, "Hour"))
      ((List.replicate 3 (⟨1, "tx", 1⟩, "Hour")).foldl (chargeHour third) accountOf100) :=
  (freeze_hour (a := accountOf100) (s := 26) rfl (by norm_num [accountOf100])
    (by norm_num [Decimal.lit]) (by decide) (by norm_num [accountOf100]) (by norm_num [Decimal.lit])
    _).1

/-! ### The estimates -/

/-- The cost of an entry is its rate times its volume. -/
theorem hourlyCost_eq {env : Env} {accountId : AccountId} {dataVolumeBytes : UInt64}
    {diskType : DiskType} {replication : ReplicationFactor} {cushionEnabled : Bool}
    {entry : BillingEntry} (h : BillingCalculator.calculateHourly env accountId dataVolumeBytes
      diskType replication cushionEnabled = some entry) :
    entry.hourlyRate.mul entry.dataVolumeTb = some entry.totalCost ∧ 0 ≤ entry.totalCost.val := by
  obtain ⟨entry', volume, hentry', -, hvolume0, hcost, -⟩ := exists_calculateHourly env accountId
    dataVolumeBytes diskType replication cushionEnabled
  obtain rfl := Option.some.inj (h.symm.trans hentry')
  have hrate0 := (exactHourlyRate_mem diskType replication cushionEnabled).1
  refine ⟨?_, (Decimal.round_isNearest hcost).le_of_le Decimal.zero_mem (by positivity)⟩
  simp only [BillingCalculator.calculateHourly, BillingEntry.new, Option.bind_eq_bind,
    Option.bind_eq_some_iff, Option.pure_def, Option.some.injEq] at h
  obtain ⟨volume', -, rate, -, cost, hmul, total, htotal, -, -, -, -, rfl⟩ := h
  have hone : (Decimal.fromU32 1).val = 1 := by simp [Decimal.fromU32]
  rw [Decimal.mul, hone, mul_one, Decimal.round_of_representable cost.representable] at htotal
  obtain rfl := Option.some.inj htotal
  exact hmul

/-- Charges that round nothing take their amounts. -/
theorem charged_exact (h0 : 0 ≤ cost.val) (hours : List (Env × String))
    (hexact : ∀ k ≤ hours.length, a.balance.val - k * cost.val ∈ Decimal.Representable) :
    (hours.foldl (chargeHour cost) a).balance.val = a.balance.val - hours.length * cost.val := by
  induction hours using List.reverseRecOn with
  | nil => simp
  | append_singleton hours hour ih =>
      have hlength : (hours ++ [hour]).length = hours.length + 1 := by simp
      rw [hlength] at hexact ⊢
      rw [List.foldl_append, List.foldl_cons, List.foldl_nil]
      have hbefore := ih fun k hk => hexact k (Nat.le_succ_of_le hk)
      generalize hours.foldl (chargeHour cost) a = b at hbefore
      rcases h0.eq_or_lt with hzero | hpos
      · rw [chargeHour_of_nonpos hzero.ge, hbefore, ← hzero, mul_zero, mul_zero]
      · have hnext : b.balance.val - cost.val =
            a.balance.val - (hours.length + 1 : ℕ) * cost.val := by
          rw [hbefore]
          push_cast
          ring
        have hmem := hexact (hours.length + 1) le_rfl
        rw [← hnext] at hmem ⊢
        rw [(chargeHour_of_sub hpos (Decimal.round_of_representable hmem) hour).1]

/-- Where no charge rounds, an account is active as long as the exact balance is positive. -/
theorem canStore_charged_iff (hactive : a.freezeManager.state = .active) (h0 : 0 < a.balance.val)
    (hcost : 0 ≤ cost.val) (hours : List (Env × String))
    (hexact : ∀ k ≤ hours.length, a.balance.val - k * cost.val ∈ Decimal.Representable) :
    (hours.foldl (chargeHour cost) a).canStore = true ↔
      hours.length * cost.val < a.balance.val := by
  rcases hcost.eq_or_lt with hzero | hpos
  · rw [List.foldl_fixed' (fun hour => chargeHour_of_nonpos hzero.ge hour) hours,
      BillingAccount.canStore, decide_eq_true_eq, ← hzero, mul_zero]
    exact iff_of_true ⟨hactive, h0⟩ h0
  obtain ⟨hwithin, -⟩ := charged_run (u := 0) hactive h0 hpos hours fun k hk d _ _ hdist => by
    have hd : d.val = a.balance.val - k * cost.val := by
      rw [mul_zero] at hdist
      linarith [abs_nonpos_iff.mp hdist]
    have hmem := hexact (k + 1) hk
    have hnext : d.val - cost.val = a.balance.val - (k + 1 : ℕ) * cost.val := by
      rw [hd]
      push_cast
      ring
    rw [← hnext] at hmem
    exact ⟨_, Decimal.round_of_representable hmem, by simp⟩
  rw [BillingAccount.canStore, decide_eq_true_eq]
  rcases hwithin with ⟨hstate, hleft, -⟩ | ⟨hstate, k, hour, hk, -, -, hhigh⟩
  · refine iff_of_true ⟨hstate, hleft⟩ ?_
    rw [charged_exact hcost hours hexact] at hleft
    linarith
  · refine iff_of_false (fun h => ?_) (not_lt.mpr ?_)
    · rw [hstate] at h
      exact FreezeState.noConfusion h.1
    · have hlt : ((k + 1 : ℕ) : ℚ) ≤ hours.length :=
        Nat.cast_le.mpr (List.getElem?_eq_some_iff.mp hk).1
      push_cast at hlt
      calc a.balance.val ≤ (k + 1) * (cost.val + 0) := hhigh
        _ ≤ hours.length * cost.val := by
            rw [add_zero]
            gcongr

/-! ### The estimates -/

section Estimates

variable {balance rate volume left daily monthly : Decimal}

/-- For fewer hours than are told to remain the balance is not used up. -/
theorem lt_of_lt_remainingHours (hmul : rate.mul volume = some cost) (hcost : 0 ≤ cost.val)
    (h0 : 0 < balance.val)
    (hleft : BillingCalculator.remainingHours balance rate volume = some left) {n : ℕ}
    (hlt : n < left.val) : n * cost.val < balance.val := by
  rw [BillingCalculator.remainingHours, hmul, Option.bind_eq_bind, Option.bind_some] at hleft
  rcases hcost.eq_or_lt with hzero | hpos
  · rwa [← hzero, mul_zero]
  · rw [if_neg hpos.ne', Decimal.div, if_neg hpos.ne'] at hleft
    rw [← lt_div_iff₀ hpos]
    by_contra hnot
    exact absurd hlt (not_lt.mpr (Decimal.round_le_natCast hleft (not_lt.mp hnot)))

/-- No more hours than are told to remain leave some of the balance. -/
theorem le_remainingHours (hmul : rate.mul volume = some cost) (hpos : 0 < cost.val)
    (hleft : BillingCalculator.remainingHours balance rate volume = some left) {n : ℕ}
    (hlt : n * cost.val < balance.val) : n ≤ left.val := by
  rw [BillingCalculator.remainingHours, hmul, Option.bind_eq_bind, Option.bind_some,
    if_neg hpos.ne', Decimal.div, if_neg hpos.ne'] at hleft
  rw [← lt_div_iff₀ hpos] at hlt
  exact Decimal.natCast_le_round hleft hlt.le

/-- A daily cost that is not rounded. -/
theorem dailyCost_val (hmul : rate.mul volume = some cost)
    (hdaily : BillingCalculator.dailyCost rate volume = some daily)
    (hday : cost.val * 24 ∈ Decimal.Representable) : daily.val = cost.val * 24 := by
  have hhours : hoursPerDay.val = 24 := by simp [hoursPerDay]
  rw [BillingCalculator.dailyCost, hmul, Option.bind_eq_bind, Option.bind_some, Decimal.mul,
    hhours, Decimal.round_of_representable hday] at hdaily
  rw [← Option.some.inj hdaily]

/-- A monthly cost that is not rounded. -/
theorem monthlyCost_val (hmonthly : BillingCalculator.monthlyCost daily = some monthly)
    (hmonth : daily.val * 30 ∈ Decimal.Representable) : monthly.val = daily.val * 30 := by
  rw [BillingCalculator.monthlyCost, Decimal.mul, Decimal.ofNat_val,
    show ((30 : ℕ) : ℚ) = 30 from rfl, Decimal.round_of_representable hmonth] at hmonthly
  rw [← Option.some.inj hmonthly]

end Estimates

/-- An hour of a terabyte on three replicas of a hard disk costs 90 kopecks. -/
theorem exists_terabyteHour :
    ∃ entry, BillingCalculator.calculateHourly ⟨0, "entry-1", 0⟩ ⟨"user-1"⟩ 1099511627776 .hdd ⟨3⟩
        false = some entry ∧ entry.totalCost.val = 9 / 10 := by
  obtain ⟨entry, -, hentry, -⟩ := exists_calculateHourly ⟨0, "entry-1", 0⟩ ⟨"user-1"⟩ 1099511627776
    .hdd ⟨3⟩ false
  refine ⟨entry, hentry, ?_⟩
  have heval : (BillingCalculator.calculateHourly ⟨0, "entry-1", 0⟩ ⟨"user-1"⟩ 1099511627776
      .hdd ⟨3⟩ false).map (fun e => e.totalCost.val) = some (9 / 10) := by
    decide +kernel
  rw [hentry] at heval
  exact Option.some.inj heval

/-- **The estimates agree with the charges**: an account with a positive balance is charged the
cost of an entry hour after hour, and no charge rounds. It may store as long as its balance is
sufficient, which is for the hours that `remaining_hours` tells and for no more than these; and
what was taken from it is as many daily and monthly costs as there were days and months of 30
days. -/
theorem estimates_agree {env : Env} {accountId : AccountId} {dataVolumeBytes : UInt64}
    {diskType : DiskType} {replication : ReplicationFactor} {cushionEnabled : Bool}
    {entry : BillingEntry} (hentry : BillingCalculator.calculateHourly env accountId
      dataVolumeBytes diskType replication cushionEnabled = some entry)
    (hactive : a.freezeManager.state = .active) (h0 : 0 < a.balance.val)
    (hours : List (Env × String))
    (hexact : ∀ k ≤ hours.length,
      a.balance.val - k * entry.totalCost.val ∈ Decimal.Representable) :
    let b := hours.foldl (chargeHour entry.totalCost) a
    b.canStore = BillingCalculator.isBalanceSufficient b.balance ∧
      (∀ left, BillingCalculator.remainingHours a.balance entry.hourlyRate entry.dataVolumeTb =
          some left →
        (hours.length < left.val → b.canStore = true) ∧
          (0 < entry.totalCost.val → b.canStore = true → hours.length ≤ left.val)) ∧
      ∀ daily, BillingCalculator.dailyCost entry.hourlyRate entry.dataVolumeTb = some daily →
        entry.totalCost.val * 24 ∈ Decimal.Representable →
        (∀ days : ℕ, hours.length = 24 * days →
            b.balance.val = a.balance.val - days * daily.val) ∧
          ∀ monthly, BillingCalculator.monthlyCost daily = some monthly →
            daily.val * 30 ∈ Decimal.Representable → ∀ months : ℕ, hours.length = 24 * 30 * months →
              b.balance.val = a.balance.val - months * monthly.val := by
  intro b
  obtain ⟨hcost, hcost0⟩ := hourlyCost_eq hentry
  have hbalance : b.balance.val = _ := charged_exact hcost0 hours hexact
  have hstore : b.canStore = true ↔ hours.length * entry.totalCost.val < a.balance.val :=
    canStore_charged_iff hactive h0 hcost0 hours hexact
  refine ⟨?_, fun left hleft => ⟨fun hlt => ?_, fun hpos hcan => ?_⟩, fun daily hdaily hday =>
    ⟨fun days hdays => ?_, fun monthly hmonthly hmonth months hmonths => ?_⟩⟩
  · rw [Bool.eq_iff_iff, hstore, BillingCalculator.isBalanceSufficient, decide_eq_true_eq, hbalance,
      sub_pos]
  · exact hstore.mpr (lt_of_lt_remainingHours hcost hcost0 h0 hleft hlt)
  · exact le_remainingHours hcost hpos hleft (hstore.mp hcan)
  · rw [hbalance, hdays, dailyCost_val hcost hdaily hday]
    push_cast
    ring
  · rw [hbalance, hmonths, monthlyCost_val hmonthly hmonth, dailyCost_val hcost hdaily hday]
    push_cast
    ring

/-- A hundred roubles last for four days of a terabyte on three replicas of a hard disk. -/
theorem estimates_agree_terabyte :
    ∃ entry, BillingCalculator.calculateHourly ⟨0, "entry-1", 0⟩ ⟨"user-1"⟩ 1099511627776 .hdd ⟨3⟩
        false = some entry ∧
      ((List.replicate 96 (⟨1, "tx", 1⟩, "Hour")).foldl (chargeHour entry.totalCost)
        accountOf100).canStore = true := by
  obtain ⟨entry, hentry, hcost⟩ := exists_terabyteHour
  refine ⟨entry, hentry, ?_⟩
  have hexact : ∀ k ≤ (List.replicate 96 ((⟨1, "tx", 1⟩ : Env), "Hour")).length,
      accountOf100.balance.val - k * entry.totalCost.val ∈ Decimal.Representable := by
    intro k hk
    rw [List.length_replicate] at hk
    refine ⟨1000 - 9 * k, 1, by decide, by rw [abs_lt]; omega, ?_⟩
    rw [hcost, accountOf100, Decimal.ofNat_val]
    push_cast
    ring
  have hhundred : accountOf100.balance.val / entry.totalCost.val = 1000 / 9 := by
    rw [hcost, accountOf100, Decimal.ofNat_val]
    norm_num
  obtain ⟨left, hround⟩ := Decimal.round_isSome
    (x := accountOf100.balance.val / entry.totalCost.val) (by rw [hhundred]; norm_num [abs_of_pos])
  have hleft : BillingCalculator.remainingHours accountOf100.balance entry.hourlyRate
      entry.dataVolumeTb = some left := by
    rw [BillingCalculator.remainingHours, (hourlyCost_eq hentry).1, Option.bind_eq_bind,
      Option.bind_some, if_neg (by norm_num [hcost]), Decimal.div, if_neg (by norm_num [hcost]),
      hround]
  refine (((estimates_agree hentry rfl (by norm_num [accountOf100]) _ hexact).2.1 left hleft).1 ?_)
  have hlong : ((111 : ℕ) : ℚ) ≤ left.val :=
    Decimal.natCast_le_round hround (by rw [hhundred]; norm_num)
  rw [List.length_replicate]
  push_cast at hlong ⊢
  linarith

end VaultKeeper
