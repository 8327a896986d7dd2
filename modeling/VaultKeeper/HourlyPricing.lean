import VaultKeeper.RevenueSplit

/-!
# Hourly Prices

The price of an hour is the exact rate times the volume in terabytes, and both the volume and
the product are rounded. Rounding keeps the order of what is rounded, so that the price
grows with the number of bytes and with the rate; and since the smallest volume is far above
the smallest value of the format, no volume is free.

## Main results

* `exactHourlyRate_mono`: the rate grows with the replication factor and the cushion.
* `totalCost_mono`: so does the price, and with the number of bytes.
* `hourly_pricing`: no overflow, nothing for free, and no lower price for more.
-/

namespace VaultKeeper

theorem DiskType.one_le_ratio (d : DiskType) : 1 ≤ d.ratio := by
  cases d <;> norm_num [DiskType.ratio]

/-- The factor of the cushion. -/
theorem cushion_mono {cushion cushion' : Bool} (h : cushion = true → cushion' = true) :
    (if cushion then 5 / 4 else 1 : ℚ) ≤ if cushion' then 5 / 4 else 1 := by
  cases cushion with
  | false =>
      rw [if_neg (by decide)]
      split <;> norm_num
  | true => rw [h rfl]

/-- The rate grows with the replication factor and with the cushion. -/
theorem exactHourlyRate_mono (diskType : DiskType) {replication replication' : ReplicationFactor}
    (h : replication.factor ≤ replication'.factor) {cushion cushion' : Bool}
    (hcushion : cushion = true → cushion' = true) :
    exactHourlyRate diskType replication cushion ≤
      exactHourlyRate diskType replication' cushion' := by
  have hfactor : (replication.factor.toNat : ℚ) ≤ replication'.factor.toNat := by
    exact_mod_cast UInt32.le_iff_toNat_le.mp h
  have hratio : 0 ≤ diskType.ratio := zero_le_one.trans diskType.one_le_ratio
  have hcushion' := cushion_mono hcushion
  have hnonneg : (0 : ℚ) ≤ if cushion then 5 / 4 else 1 := by split <;> norm_num
  rw [exactHourlyRate, exactHourlyRate]
  gcongr

/-- The rate of one replica or more is at least the base rate. -/
theorem baseRate_le_exactHourlyRate (diskType : DiskType) {replication : ReplicationFactor}
    (h : 0 < replication.factor) (cushion : Bool) :
    3 / 10 ≤ exactHourlyRate diskType replication cushion := by
  have hfactor : (1 : ℚ) ≤ replication.factor.toNat := by
    exact_mod_cast UInt32.lt_iff_toNat_lt.mp h
  have hratio := diskType.one_le_ratio
  have hcushion : (1 : ℚ) ≤ if cushion then 5 / 4 else 1 := by split <;> norm_num
  rw [exactHourlyRate]
  calc (3 / 10 : ℚ) = 3 / 10 * 1 * 1 * 1 := by norm_num
    _ ≤ 3 / 10 * replication.factor.toNat * diskType.ratio *
        if cushion then 5 / 4 else 1 := by gcongr

section Entries

variable {dataVolumeBytes dataVolumeBytes' : UInt64} {volume volume' cost cost' : Decimal}

/-- One byte is more than nine tenths of a millionth of a millionth of a terabyte, before and
after rounding. -/
theorem volume_pos (h : 0 < dataVolumeBytes)
    (hvolume : Decimal.round (dataVolumeBytes.toNat / 2 ^ 40) = some volume) :
    9 / 10 ^ 13 ≤ volume.val := by
  have hbytes : (1 : ℚ) ≤ dataVolumeBytes.toNat := by
    exact_mod_cast UInt64.lt_iff_toNat_lt.mp h
  have hmem : (9 / 10 ^ 13 : ℚ) ∈ Decimal.Representable :=
    ⟨9, 13, by norm_num, by norm_num, by norm_num⟩
  refine (Decimal.round_isNearest hvolume).le_of_le hmem ?_
  calc (9 / 10 ^ 13 : ℚ) ≤ 1 / 2 ^ 40 := by norm_num
    _ ≤ dataVolumeBytes.toNat / 2 ^ 40 := by gcongr

/-- Bytes on replicas have a price. -/
theorem totalCost_pos {rate : ℚ} (hrate : 3 / 10 ≤ rate) (hvolume : 9 / 10 ^ 13 ≤ volume.val)
    (hcost : Decimal.round (rate * volume.val) = some cost) : 0 < cost.val := by
  have hmem : (27 / 10 ^ 14 : ℚ) ∈ Decimal.Representable :=
    ⟨27, 14, by norm_num, by norm_num, by norm_num⟩
  have hprice : (27 / 10 ^ 14 : ℚ) ≤ cost.val := by
    refine (Decimal.round_isNearest hcost).le_of_le hmem ?_
    calc (27 / 10 ^ 14 : ℚ) = 3 / 10 * (9 / 10 ^ 13) := by norm_num
      _ ≤ rate * volume.val := by gcongr
  exact lt_of_lt_of_le (by norm_num) hprice

/-- The price grows with the number of bytes and with the rate, through both roundings. -/
theorem totalCost_mono (hbytes : dataVolumeBytes ≤ dataVolumeBytes') {rate rate' : ℚ}
    (hrate0 : 0 ≤ rate) (hrate : rate ≤ rate')
    (hvolume : Decimal.round (dataVolumeBytes.toNat / 2 ^ 40) = some volume)
    (hvolume' : Decimal.round (dataVolumeBytes'.toNat / 2 ^ 40) = some volume')
    (hvolume0 : 0 ≤ volume.val) (hcost : Decimal.round (rate * volume.val) = some cost)
    (hcost' : Decimal.round (rate' * volume'.val) = some cost') : cost.val ≤ cost'.val := by
  have hbytes' : (dataVolumeBytes.toNat : ℚ) ≤ dataVolumeBytes'.toNat := by
    exact_mod_cast UInt64.le_iff_toNat_le.mp hbytes
  have hrate0' : 0 ≤ rate' := hrate0.trans hrate
  have hvolumes : volume.val ≤ volume'.val :=
    Decimal.round_mono hvolume hvolume' (by gcongr)
  exact Decimal.round_mono hcost hcost' (by gcongr)

end Entries

/-- **Hourly pricing**: every entry is computed without overflow; it costs something when it
has bytes and replicas; and another entry for the same kind of disk, with no fewer bytes and
replicas and no cushion taken away, costs no less. -/
theorem hourly_pricing (env env' : Env) (accountId accountId' : AccountId)
    (dataVolumeBytes dataVolumeBytes' : UInt64) (diskType : DiskType)
    (replication replication' : ReplicationFactor) (cushionEnabled cushionEnabled' : Bool) :
    ∃ entry entry',
      BillingCalculator.calculateHourly env accountId dataVolumeBytes diskType replication
          cushionEnabled = some entry ∧
      BillingCalculator.calculateHourly env' accountId' dataVolumeBytes' diskType replication'
          cushionEnabled' = some entry' ∧
      (0 < dataVolumeBytes → 0 < replication.factor → 0 < entry.totalCost.val) ∧
      (dataVolumeBytes ≤ dataVolumeBytes' → replication.factor ≤ replication'.factor →
        (cushionEnabled = true → cushionEnabled' = true) →
          entry.totalCost.val ≤ entry'.totalCost.val) := by
  obtain ⟨entry, volume, hentry, hvolume, hvolume0, hcost, -⟩ := exists_calculateHourly env
    accountId dataVolumeBytes diskType replication cushionEnabled
  obtain ⟨entry', volume', hentry', hvolume', -, hcost', -⟩ := exists_calculateHourly env'
    accountId' dataVolumeBytes' diskType replication' cushionEnabled'
  refine ⟨entry, entry', hentry, hentry', fun hbytes hfactor => ?_,
    fun hbytes hfactor hcushion => ?_⟩
  · exact totalCost_pos (baseRate_le_exactHourlyRate diskType hfactor cushionEnabled)
      (volume_pos hbytes hvolume) hcost
  · exact totalCost_mono hbytes (exactHourlyRate_mem diskType replication cushionEnabled).1
      (exactHourlyRate_mono diskType hfactor hcushion) hvolume hvolume' hvolume0 hcost hcost'

end VaultKeeper
