import VaultKeeper.Account

/-!
# Hourly Billing

`billing/src/rates.rs`, the billing entry of `billing/src/types.rs` and the calculator of
`billing/src/calculator.rs`. Every operator on decimals can panic, so each function that
uses one returns an `Option`.

## Main results

* `calculateHourlyRate_eq`: the hourly rate is computed without rounding.
* `exists_volume`: the volume in terabytes is rounded once, without overflow.
-/

namespace VaultKeeper

/-- `Decimal::from` of a `u64`. -/
def Decimal.fromU64 (n : UInt64) : Decimal :=
  .ofNat n.toNat n.toNat_lt

/-- `Decimal::from` of a `u32`. -/
def Decimal.fromU32 (n : UInt32) : Decimal :=
  .ofNat n.toNat (n.toNat_lt.trans (by decide))

/-- Base rate: 0.30 RUB per TB per hour. -/
def baseRatePerTbHour : Decimal :=
  .lit 30 2 (by decide)

/-- Platform share: 10%. -/
def platformShare : Decimal :=
  .lit 10 2 (by decide)

/-- Host share: 90%. -/
def hostShare : Decimal :=
  .lit 90 2 (by decide)

/-- Cushion multiplier: +25%. -/
def cushionMultiplier : Decimal :=
  .lit 125 2 (by decide)

/-- Disk types. -/
inductive DiskType
  | hdd
  | ssd
  | nvme
deriving DecidableEq

/-- The number a disk type is stored as. -/
def DiskType.toU32 : DiskType → UInt32
  | .hdd => 1
  | .ssd => 2
  | .nvme => 3

/-- Disk type multiplier. -/
def DiskType.multiplier : DiskType → Decimal
  | .hdd => .lit 10 1 (by decide)
  | .ssd => .lit 15 1 (by decide)
  | .nvme => .lit 20 1 (by decide)

/-- Replication factor. -/
structure ReplicationFactor where
  factor : UInt32
deriving DecidableEq

/-- Replication factor multiplier. -/
def ReplicationFactor.multiplier (r : ReplicationFactor) : Decimal :=
  .fromU32 r.factor

/-- The hourly rate: base rate, replication multiplier, disk multiplier, and the cushion
multiplier when it is enabled. -/
def calculateHourlyRate (diskType : DiskType) (replication : ReplicationFactor)
    (cushionEnabled : Bool) : Option Decimal := do
  let replicated ← baseRatePerTbHour.mul replication.multiplier
  let rate ← replicated.mul diskType.multiplier
  if cushionEnabled then rate.mul cushionMultiplier else pure rate

/-- A single billing entry. -/
structure BillingEntry where
  id : String
  accountId : AccountId
  timestamp : ℤ
  hours : UInt32
  dataVolumeTb : Decimal
  hourlyRate : Decimal
  totalCost : Decimal
  platformFee : Decimal
  hostFee : Decimal
  diskType : UInt32
  replicationFactor : UInt32
  cushionEnabled : Bool
deriving DecidableEq

/-- A billing entry; `id` is the fresh identifier. -/
def BillingEntry.new (id : String) (accountId : AccountId) (timestamp : ℤ) (hours : UInt32)
    (dataVolumeTb hourlyRate : Decimal) (diskType replicationFactor : UInt32)
    (cushionEnabled : Bool) : Option BillingEntry := do
  let hourlyCost ← hourlyRate.mul dataVolumeTb
  let totalCost ← hourlyCost.mul (.fromU32 hours)
  let platformFee ← totalCost.mul platformShare
  let hostFee ← totalCost.mul hostShare
  pure
    { id := id, accountId := accountId, timestamp := timestamp, hours := hours
      dataVolumeTb := dataVolumeTb, hourlyRate := hourlyRate, totalCost := totalCost
      platformFee := platformFee, hostFee := hostFee, diskType := diskType
      replicationFactor := replicationFactor, cushionEnabled := cushionEnabled }

/-- Whether the two fees add up to the total cost. -/
def BillingEntry.verifySplit (e : BillingEntry) : Option Bool := do
  let sum ← e.platformFee.add e.hostFee
  pure (sum.val == e.totalCost.val)

/-- The bytes of a terabyte, `2^40`. -/
def bytesPerTb : Decimal :=
  .lit 1099511627776 0 (by decide)

/-- Calculate a single hourly billing entry. -/
def BillingCalculator.calculateHourly (env : Env) (accountId : AccountId)
    (dataVolumeBytes : UInt64) (diskType : DiskType) (replication : ReplicationFactor)
    (cushionEnabled : Bool) : Option BillingEntry := do
  let dataVolumeTb ← (Decimal.fromU64 dataVolumeBytes).div bytesPerTb
  let hourlyRate ← calculateHourlyRate diskType replication cushionEnabled
  BillingEntry.new env.txId accountId env.now 1 dataVolumeTb hourlyRate diskType.toU32
    replication.factor cushionEnabled

/-! ### The rate is exact -/

/-- The exact multiplier of a disk type. -/
def DiskType.ratio : DiskType → ℚ
  | .hdd => 1
  | .ssd => 3 / 2
  | .nvme => 2

/-- The exact hourly rate per terabyte. -/
def exactHourlyRate (diskType : DiskType) (replication : ReplicationFactor)
    (cushionEnabled : Bool) : ℚ :=
  3 / 10 * replication.factor.toNat * diskType.ratio * if cushionEnabled then 5 / 4 else 1

/-- The multiplier of a disk type, in tenths. -/
theorem DiskType.exists_tenths (d : DiskType) :
    ∃ k : ℤ, 10 ≤ k ∧ k ≤ 20 ∧ d.multiplier.val = k / 10 ^ 1 ∧ d.ratio = k / 10 := by
  cases d with
  | hdd => exact ⟨10, by norm_num, by norm_num, rfl, by norm_num [ratio]⟩
  | ssd => exact ⟨15, by norm_num, by norm_num, rfl, by norm_num [ratio]⟩
  | nvme => exact ⟨20, by norm_num, by norm_num, rfl, by norm_num [ratio]⟩

/-- The hourly rate is computed without overflow and without rounding. -/
theorem calculateHourlyRate_eq (diskType : DiskType) (replication : ReplicationFactor)
    (cushionEnabled : Bool) :
    ∃ rate, calculateHourlyRate diskType replication cushionEnabled = some rate ∧
      rate.val = exactHourlyRate diskType replication cushionEnabled := by
  obtain ⟨k, hk₁, hk₂, hk, hratio⟩ := diskType.exists_tenths
  obtain ⟨r, hr⟩ : ∃ r : ℤ, r = replication.factor.toNat := ⟨_, rfl⟩
  have hrlt := replication.factor.toNat_lt
  have hrq : (replication.factor.toNat : ℚ) = r := by exact_mod_cast hr.symm
  have hrval : replication.multiplier.val = (r : ℚ) / 10 ^ 0 := by
    simp [ReplicationFactor.multiplier, Decimal.fromU32, hrq]
  obtain ⟨replicated, hreplicated, hval₁⟩ := Decimal.exists_mul (a := baseRatePerTbHour)
    (m := 30) (s := 2) rfl hrval (by norm_num) (by rw [abs_lt]; omega)
  have hrange : |30 * r * k| < 2 ^ 42 := by
    rw [abs_lt]
    constructor <;> nlinarith
  obtain ⟨rate, hrate, hval₂⟩ := Decimal.exists_mul hval₁ hk (by norm_num)
    (hrange.trans (by norm_num))
  cases cushionEnabled with
  | false =>
      refine ⟨rate, by simp [calculateHourlyRate, hreplicated, hrate], ?_⟩
      rw [hval₂, exactHourlyRate, hratio, hrq]
      push_cast
      norm_num
      ring
  | true =>
      obtain ⟨cushioned, hcushioned, hval₃⟩ := Decimal.exists_mul hval₂
        (b := cushionMultiplier) (k := 125) (j := 2) rfl (by norm_num) (by
          rw [abs_lt] at hrange ⊢
          omega)
      refine ⟨cushioned, by simp [calculateHourlyRate, hreplicated, hrate, hcushioned], ?_⟩
      rw [hval₃, exactHourlyRate, hratio, hrq]
      push_cast
      norm_num
      ring

/-- The exact hourly rate is at most `2^32`. -/
theorem exactHourlyRate_mem (diskType : DiskType) (replication : ReplicationFactor)
    (cushionEnabled : Bool) :
    0 ≤ exactHourlyRate diskType replication cushionEnabled ∧
      exactHourlyRate diskType replication cushionEnabled ≤ 2 ^ 32 := by
  obtain ⟨k, hk₁, hk₂, -, hratio⟩ := diskType.exists_tenths
  have hr : (replication.factor.toNat : ℚ) ≤ 2 ^ 32 := by
    exact_mod_cast replication.factor.toNat_lt.le
  have hd₁ : 1 ≤ diskType.ratio := by
    rw [hratio]
    have : (10 : ℚ) ≤ k := by exact_mod_cast hk₁
    linarith
  have hd₂ : diskType.ratio ≤ 2 := by
    rw [hratio]
    have : (k : ℚ) ≤ 20 := by exact_mod_cast hk₂
    linarith
  have hc : (if cushionEnabled then 5 / 4 else 1 : ℚ) ≤ 5 / 4 := by
    split_ifs <;> norm_num
  have hc0 : (0 : ℚ) ≤ if cushionEnabled then 5 / 4 else 1 := by
    split_ifs <;> norm_num
  rw [exactHourlyRate]
  refine ⟨by positivity, ?_⟩
  calc 3 / 10 * (replication.factor.toNat : ℚ) * diskType.ratio *
        (if cushionEnabled then 5 / 4 else 1)
      ≤ 3 / 10 * 2 ^ 32 * 2 * (5 / 4) := by gcongr
    _ ≤ 2 ^ 32 := by norm_num

/-- The volume in terabytes is rounded without overflow, and at most `2^24`. -/
theorem exists_volume (dataVolumeBytes : UInt64) :
    ∃ volume, (Decimal.fromU64 dataVolumeBytes).div bytesPerTb = some volume ∧
      Decimal.round (dataVolumeBytes.toNat / 2 ^ 40) = some volume ∧
        0 ≤ volume.val ∧ volume.val ≤ 2 ^ 24 := by
  have hbytes : (dataVolumeBytes.toNat : ℚ) ≤ 2 ^ 64 := by
    exact_mod_cast dataVolumeBytes.toNat_lt.le
  have hpos : (0 : ℚ) ≤ dataVolumeBytes.toNat / 2 ^ 40 := by positivity
  have hle : (dataVolumeBytes.toNat / 2 ^ 40 : ℚ) ≤ 2 ^ 24 := by
    rw [div_le_iff₀ (by positivity)]
    linarith
  obtain ⟨volume, hround⟩ := Decimal.round_isSome (x := dataVolumeBytes.toNat / 2 ^ 40) (by
    rw [abs_of_nonneg hpos]
    linarith)
  have hbound : (2 ^ 24 : ℚ) ∈ Decimal.Representable :=
    ⟨2 ^ 24, 0, by norm_num, by norm_num, by norm_num⟩
  refine ⟨volume, ?_, hround, (Decimal.round_isNearest hround).le_of_le Decimal.zero_mem hpos,
    (Decimal.round_isNearest hround).le_of_ge hbound hle⟩
  have hdivisor : bytesPerTb.val = 2 ^ 40 := by norm_num [bytesPerTb]
  rw [Decimal.div, hdivisor, if_neg (by norm_num), Decimal.fromU64, Decimal.ofNat_val, hround]

end VaultKeeper
