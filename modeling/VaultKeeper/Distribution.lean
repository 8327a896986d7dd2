import VaultKeeper.Runway

/-!
# What the Platform and the Hosts Get

`billing/src/types.rs` over `billing/src/account.rs`: each hourly entry tells the fee of the
platform and that of the host, and the account is charged its total cost. A fee is a rounded
share of the cost, and the charge rounds the balance. Over any number of entries, what has left
the account and what the fees add up to differ by these roundings only.

## Main results

* `fees_near`: the fees of an entry and its cost.
* `fees_of_charges`: the fees of the entries that an account was charged, and its balance.
-/

namespace VaultKeeper

/-- The entry was calculated for an hour. -/
def BillingEntry.IsHourly (entry : BillingEntry) : Prop :=
  ∃ env accountId dataVolumeBytes diskType replication cushionEnabled,
    BillingCalculator.calculateHourly env accountId dataVolumeBytes diskType replication
      cushionEnabled = some entry

/-- An entry, and the call that charges an account for it. -/
structure Bill where
  env : Env
  description : String
  entry : BillingEntry

/-- Charge the total cost of the entry. -/
def chargeBill (a : BillingAccount) (bill : Bill) : BillingAccount :=
  chargeHour bill.entry.totalCost a (bill.env, bill.description)

/-- The costs of the entries together. -/
def totalCosts (bills : List Bill) : ℚ :=
  (bills.map fun bill => bill.entry.totalCost.val).sum

/-- The fees of the entries together. -/
def totalFees (bills : List Bill) : ℚ :=
  (bills.map fun bill => bill.entry.platformFee.val + bill.entry.hostFee.val).sum

variable {entry : BillingEntry} {s : ℕ}

theorem BillingEntry.IsHourly.cost_nonneg (h : entry.IsHourly) : 0 ≤ entry.totalCost.val := by
  obtain ⟨env, accountId, dataVolumeBytes, diskType, replication, cushionEnabled, hentry⟩ := h
  exact (hourlyCost_eq hentry).2

/-- The fees are the rounded shares of the total cost. -/
theorem BillingEntry.IsHourly.fees (h : entry.IsHourly) :
    Decimal.round (entry.totalCost.val * (1 / 10)) = some entry.platformFee ∧
      Decimal.round (entry.totalCost.val * (9 / 10)) = some entry.hostFee := by
  obtain ⟨env, accountId, dataVolumeBytes, diskType, replication, cushionEnabled, hentry⟩ := h
  simp only [BillingCalculator.calculateHourly, BillingEntry.new, Option.bind_eq_bind,
    Option.bind_eq_some_iff, Option.pure_def, Option.some.injEq] at hentry
  obtain ⟨volume, -, rate, -, cost, -, total, -, platform, hplatform, host, hhost, rfl⟩ := hentry
  have hten : platformShare.val = 1 / 10 := by norm_num [platformShare]
  have hninety : hostShare.val = 9 / 10 := by norm_num [hostShare]
  rw [Decimal.mul, hten] at hplatform
  rw [Decimal.mul, hninety] at hhost
  exact ⟨hplatform, hhost⟩

/-- **The fees of an entry** add up to its cost but for half a unit of the scale each. -/
theorem fees_near (hs : s ≤ 28) (h : entry.IsHourly)
    (hrange : entry.totalCost.val * 10 ^ s ≤ 2 ^ 96 - 1) :
    |entry.platformFee.val + entry.hostFee.val - entry.totalCost.val| ≤ 1 / 10 ^ s := by
  have hcost := h.cost_nonneg
  have hshare : ∀ {share : ℚ} {fee : Decimal}, 0 ≤ share → share ≤ 1 →
      Decimal.round (entry.totalCost.val * share) = some fee →
        |fee.val - entry.totalCost.val * share| ≤ 1 / (2 * 10 ^ s) := by
    intro share fee h0 h1 hfee
    have hle : entry.totalCost.val * share ≤ entry.totalCost.val := mul_le_of_le_one_right hcost h1
    obtain ⟨d, hd, hnear⟩ := Decimal.exists_round_near (x := entry.totalCost.val * share) hs (by
      rw [abs_of_nonneg (by positivity)]
      refine le_trans ?_ hrange
      gcongr)
    obtain rfl := Option.some.inj (hfee.symm.trans hd)
    exact hnear
  obtain ⟨hplatform, hhost⟩ := h.fees
  have hp := abs_le.mp (hshare (by norm_num) (by norm_num) hplatform)
  have hh := abs_le.mp (hshare (by norm_num) (by norm_num) hhost)
  have hunit : (1 : ℚ) / 10 ^ s = 1 / (2 * 10 ^ s) + 1 / (2 * 10 ^ s) := by
    field_simp
    norm_num
  rw [hunit, abs_le]
  constructor <;> linarith

/-- A charge takes the cost from the balance but for half a unit of the scale. -/
theorem chargeBill_near (hs : s ≤ 28) {bill : Bill} (h : bill.entry.IsHourly) (a : BillingAccount)
    (hrange : (|a.balance.val| + bill.entry.totalCost.val) * 10 ^ s ≤ 2 ^ 96 - 1) :
    |(chargeBill a bill).balance.val - (a.balance.val - bill.entry.totalCost.val)| ≤
      1 / (2 * 10 ^ s) := by
  rcases h.cost_nonneg.eq_or_lt with hzero | hpos
  · rw [chargeBill, chargeHour_of_nonpos hzero.ge, ← hzero, sub_zero, sub_self, abs_zero]
    positivity
  · have hdiff : |a.balance.val - bill.entry.totalCost.val| ≤
        |a.balance.val| + bill.entry.totalCost.val := by
      rw [abs_le]
      constructor <;> linarith [neg_abs_le a.balance.val, le_abs_self a.balance.val]
    obtain ⟨d, hd, hnear⟩ := Decimal.exists_round_near hs
      (x := a.balance.val - bill.entry.totalCost.val) (le_trans (by gcongr) hrange)
    rwa [chargeBill, (chargeHour_of_sub hpos hd _).1]

/-- One charge takes from the balance what the fees of its entry add up to, but for three half
units of the scale. -/
theorem chargeBill_fees_near (hs : s ≤ 28) {bill : Bill} (h : bill.entry.IsHourly)
    (a : BillingAccount)
    (hrange : (|a.balance.val| + bill.entry.totalCost.val) * 10 ^ s ≤ 2 ^ 96 - 1) :
    |a.balance.val - (chargeBill a bill).balance.val -
        (bill.entry.platformFee.val + bill.entry.hostFee.val)| ≤ 3 / (2 * 10 ^ s) := by
  have hcharge := abs_le.mp (chargeBill_near hs h a hrange)
  have hfee := abs_le.mp (fees_near hs h (by
    have hbalance : 0 ≤ |a.balance.val| * 10 ^ s := by positivity
    linarith))
  have hunits : (3 : ℚ) / (2 * 10 ^ s) = 1 / (2 * 10 ^ s) + 1 / 10 ^ s := by
    field_simp
    norm_num
  rw [hunits, abs_le]
  constructor <;> linarith

/-- After a charge the balance and the costs that are left are no larger, but for the half unit
of the charge. -/
theorem chargeBill_range (hs : s ≤ 28) {bill : Bill} (h : bill.entry.IsHourly)
    (a : BillingAccount)
    (hrange : (|a.balance.val| + bill.entry.totalCost.val) * 10 ^ s ≤ 2 ^ 96 - 1) :
    |(chargeBill a bill).balance.val| * 10 ^ s ≤
      (|a.balance.val| + bill.entry.totalCost.val) * 10 ^ s + 1 / 2 := by
  have hnext : |(chargeBill a bill).balance.val| ≤
      |a.balance.val| + bill.entry.totalCost.val + 1 / (2 * 10 ^ s) := by
    have hcost := h.cost_nonneg
    have hcharge := abs_le.mp (chargeBill_near hs h a hrange)
    rw [abs_le]
    constructor <;> linarith [neg_abs_le a.balance.val, le_abs_self a.balance.val]
  calc |(chargeBill a bill).balance.val| * 10 ^ s
      ≤ (|a.balance.val| + bill.entry.totalCost.val + 1 / (2 * 10 ^ s)) * 10 ^ s := by gcongr
    _ = (|a.balance.val| + bill.entry.totalCost.val) * 10 ^ s + 1 / 2 := by
        field_simp

/-- **What is paid is what is distributed**: whatever entries an account is charged one after
another, in the range of a scale, what has left it is what the fees of the platform and the
hosts add up to, but for three half units of the scale for each entry. -/
theorem fees_of_charges (hs : s ≤ 28) (a : BillingAccount) (bills : List Bill)
    (hbills : ∀ bill ∈ bills, bill.entry.IsHourly)
    (hrange : (|a.balance.val| + totalCosts bills) * 10 ^ s + bills.length / 2 ≤ 2 ^ 96 - 1) :
    |a.balance.val - (bills.foldl chargeBill a).balance.val - totalFees bills| ≤
      bills.length * (3 / (2 * 10 ^ s)) := by
  induction bills generalizing a with
  | nil => simp [totalFees]
  | cons bill bills ih =>
      rw [List.forall_mem_cons] at hbills
      have hrest : 0 ≤ totalCosts bills := List.sum_nonneg fun c hc => by
        obtain ⟨other, hother, rfl⟩ := List.mem_map.mp hc
        exact (hbills.2 other hother).cost_nonneg
      have hcosts : totalCosts (bill :: bills) = bill.entry.totalCost.val + totalCosts bills := rfl
      have hfees : totalFees (bill :: bills) =
          bill.entry.platformFee.val + bill.entry.hostFee.val + totalFees bills := rfl
      rw [List.length_cons, hcosts] at hrange
      push_cast at hrange
      have hone : (|a.balance.val| + bill.entry.totalCost.val) * 10 ^ s ≤ 2 ^ 96 - 1 := by
        have hcount : (0 : ℚ) ≤ bills.length := Nat.cast_nonneg _
        have hrest' : 0 ≤ totalCosts bills * 10 ^ s := by positivity
        linarith
      have hfirst := chargeBill_fees_near hs hbills.1 a hone
      have hafter := ih (chargeBill a bill) hbills.2 (by
        linarith [chargeBill_range hs hbills.1 a hone])
      rw [List.foldl_cons, hfees, List.length_cons]
      push_cast
      rw [abs_le] at hfirst hafter ⊢
      constructor <;> linarith

/-- Ten hours of a terabyte on three replicas of a hard disk, charged to a hundred roubles. -/
theorem fees_of_charges_terabyte :
    ∃ entry, BillingCalculator.calculateHourly ⟨0, "entry-1", 0⟩ ⟨"user-1"⟩ 1099511627776 .hdd ⟨3⟩
        false = some entry ∧
      |100 - ((List.replicate 10 (Bill.mk ⟨1, "tx", 1⟩ "Hour" entry)).foldl chargeBill
          accountOf100).balance.val - totalFees (List.replicate 10 ⟨⟨1, "tx", 1⟩, "Hour", entry⟩)| ≤
        10 * (3 / (2 * 10 ^ 20)) := by
  obtain ⟨entry, hentry, hcost⟩ := exists_terabyteHour
  refine ⟨entry, hentry, ?_⟩
  have hbalance : accountOf100.balance.val = 100 := by simp [accountOf100]
  have hbills : ∀ bill ∈ List.replicate 10 (Bill.mk ⟨1, "tx", 1⟩ "Hour" entry),
      bill.entry.IsHourly := by
    intro bill hbill
    rw [List.eq_of_mem_replicate hbill]
    exact ⟨_, _, _, _, _, _, hentry⟩
  have hcosts : totalCosts (List.replicate 10 (Bill.mk ⟨1, "tx", 1⟩ "Hour" entry)) = 9 := by
    rw [totalCosts, List.map_replicate, List.sum_replicate, hcost]
    norm_num
  have hnear := fees_of_charges (s := 20) (by decide) accountOf100 _ hbills (by
    rw [hbalance, hcosts, List.length_replicate]
    norm_num)
  rwa [hbalance, List.length_replicate] at hnear

end VaultKeeper
