import VaultKeeper.Subscription

/-!
# Pro-Rata Days

`billing/src/subscription.rs`: the days that are left of a period of 30, and the days used of
it, which are subtracted from 30 as 32-bit numbers. No call of a manager sets the end of the
period more than 30 days after the time it reads, so that no more than 30 days are left at any
later time.

A change of the tier counts the days at one reading of the clock and starts them anew at a
second. The end of the period moves back by what was left beyond whole days, but an end that has
passed moves forward to the time of the change, and the time between the two readings is added.

## Main results

* `paidUntil_le`: the end of the period in a run whose clock does not go back.
* `paidUntil_changeStep_le`: how far one change moves the end of the period.
* `proRata_bounded`: the two at every point of such a run.
-/

namespace VaultKeeper

/-- The days of a period that are used, for some that are left. `none` is a difference below
zero. -/
def usedDays (remainingDays : UInt32) : Option UInt32 :=
  if remainingDays ≤ 30 then some (30 - remainingDays) else none

/-- The days that `change_tier` counts, `days_remaining() as u32`. -/
def SubscriptionManager.remainingDays (m : SubscriptionManager) (countedAt : ℤ) : UInt32 :=
  UInt32.ofNat (m.current.daysRemaining countedAt).toNat

/-- The readings of the clock that a call makes. -/
def SubscriptionCall.readings : SubscriptionCall → List ℤ
  | .subscribe now _ => [now]
  | .changeTier c => [c.countedAt, c.changedAt]

/-- The readings of the clock in a run, from that of `new` on. -/
def clockReadings (start : ℤ) (calls : List SubscriptionCall) : List ℤ :=
  start :: calls.flatMap SubscriptionCall.readings

/-- The manager after some calls on a new one. -/
def managerAfter (start : ℤ) (calls : List SubscriptionCall) : SubscriptionManager :=
  calls.foldl subscriptionStep (.new start)

/-! ### One call -/

/-- Of a period that ends no more than 30 days from now, 0 to 30 days are left. -/
theorem daysRemaining_bounded {s : SubscriptionState} {now : ℤ}
    (h : s.paidUntil ≤ now + durationDays 30) :
    0 ≤ s.daysRemaining now ∧ s.daysRemaining now ≤ 30 := by
  have hcount := (toNat_numDays_iff (s.paidUntil - now) _).mp rfl
  have hnonneg : 0 ≤ s.daysRemaining now := le_max_right _ _
  change (durationDays (s.daysRemaining now).toNat ≤ _ ∨ (s.daysRemaining now).toNat = 0) ∧ _
    at hcount
  refine ⟨hnonneg, ?_⟩
  rcases hcount.1 with hdays | hzero
  · rw [durationDays, Int.toNat_of_nonneg hnonneg, nanosPerSecond] at hdays
    rw [durationDays, nanosPerSecond] at h
    omega
  · omega

/-- **One change** moves the end of the period no further than to the time it counts the days at,
and by the time it takes. -/
theorem paidUntil_changeStep_le (m : SubscriptionManager) (c : TierChange)
    (hclock : c.countedAt ≤ c.changedAt) :
    (changeStep m c).current.paidUntil ≤
      max m.current.paidUntil c.countedAt + (c.changedAt - c.countedAt) := by
  by_cases htier : m.current.tier = c.newTier
  · rw [changeStep, SubscriptionManager.changeTier_of_eq htier]
    change m.current.paidUntil ≤ _
    omega
  · obtain ⟨net, hchange⟩ :=
      SubscriptionManager.changeTier_of_ne htier c.countedAt c.changedAt
    have hcount := ((toNat_numDays_iff (m.current.paidUntil - c.countedAt) _).mp rfl).1
    have hmod := Nat.mod_le (m.current.daysRemaining c.countedAt).toNat (2 ^ 32)
    rw [changeStep, hchange]
    simp only [durationDays, SubscriptionState.daysRemaining] at hcount hmod ⊢
    rw [nanosPerSecond] at *
    omega

/-- The days that are left are 0 to 30 as a 32-bit number too, and are subtracted from 30. -/
theorem isSome_usedDays {m : SubscriptionManager} {countedAt : ℤ}
    (h : m.current.paidUntil ≤ countedAt + durationDays 30) :
    (usedDays (m.remainingDays countedAt)).isSome = true := by
  obtain ⟨hnonneg, hle⟩ := daysRemaining_bounded h
  have hsmall : m.remainingDays countedAt ≤ 30 := by
    have hlt : (m.current.daysRemaining countedAt).toNat < 2 ^ 32 := by omega
    rw [UInt32.le_iff_toNat_le, SubscriptionManager.remainingDays, UInt32.toNat_ofNat',
      Nat.mod_eq_of_lt hlt]
    change (m.current.daysRemaining countedAt).toNat ≤ 30
    omega
  rw [usedDays, if_pos hsmall]
  rfl

/-! ### Runs -/

/-- The readings of a run and of one more call. -/
theorem clockReadings_append (start : ℤ) (calls : List SubscriptionCall)
    (call : SubscriptionCall) :
    clockReadings start (calls ++ [call]) = clockReadings start calls ++ call.readings := by
  simp [clockReadings]

/-- The readings before a change of the tier are no later than its first, and that is no later
than its second. -/
theorem clockReadings_changeTier {start : ℤ} {before : List SubscriptionCall} {c : TierChange}
    (hclock : (clockReadings start (before ++ [.changeTier c])).Pairwise (· ≤ ·)) :
    (clockReadings start before).Pairwise (· ≤ ·) ∧
      (∀ t ∈ clockReadings start before, t ≤ c.countedAt) ∧ c.countedAt ≤ c.changedAt := by
  rw [clockReadings_append] at hclock
  obtain ⟨hbefore, hcall, hcross⟩ := List.pairwise_append.mp hclock
  exact ⟨hbefore, fun t ht => hcross t ht c.countedAt (List.mem_cons_self ..),
    by simpa [SubscriptionCall.readings] using hcall⟩

/-- **The end of the period** is at most 30 days after the last reading of a clock that does not
go back. Induction on the calls; a change counts no more days than the bound at its first reading
leaves. -/
theorem paidUntil_le {start : ℤ} {calls : List SubscriptionCall}
    (hclock : (clockReadings start calls).Pairwise (· ≤ ·)) {now : ℤ}
    (hnow : ∀ t ∈ clockReadings start calls, t ≤ now) :
    (managerAfter start calls).current.paidUntil ≤ now + durationDays 30 := by
  induction calls using List.reverseRecOn generalizing now with
  | nil =>
      have hstart := hnow start (List.mem_cons_self ..)
      have hmonth : 0 ≤ durationDays 30 := by decide
      change start ≤ _
      omega
  | append_singleton calls call ih =>
      rw [clockReadings_append] at hnow
      rw [managerAfter, List.foldl_append]
      cases call with
      | subscribe t tier =>
          have ht := hnow t (List.mem_append_right _ (List.mem_singleton_self t))
          change t + durationDays 30 ≤ _
          omega
      | changeTier c =>
          have hsecond := hnow c.changedAt (List.mem_append_right _ (by
            simp [SubscriptionCall.readings]))
          obtain ⟨hbefore, hcounted, hgap⟩ := clockReadings_changeTier hclock
          have hbound := ih hbefore hcounted
          have hstep := paidUntil_changeStep_le (managerAfter start calls) c hgap
          have hmonth : 0 ≤ durationDays 30 := by decide
          change (changeStep (managerAfter start calls) c).current.paidUntil ≤ _
          omega

/-- A clock that does not go back in a run has not gone back before. -/
theorem pairwise_clockReadings_mono {start : ℤ} {before calls : List SubscriptionCall}
    (hclock : (clockReadings start calls).Pairwise (· ≤ ·)) (h : before <+: calls) :
    (clockReadings start before).Pairwise (· ≤ ·) := by
  obtain ⟨after, rfl⟩ := h
  rw [clockReadings, List.flatMap_append, ← List.cons_append] at hclock
  exact (List.pairwise_append.mp hclock).1

/-- **Pro-rata days**: in every run of a new manager under a clock that does not go back, at
every point 0 to 30 days are left at any time from then on; the days that a change counts can be
subtracted from 30; and the change leaves an end of the period that is at most the old one, or the
time it counts the days at when that is later, plus the time between its readings of the clock. -/
theorem proRata_bounded (start : ℤ) (calls : List SubscriptionCall)
    (hclock : (clockReadings start calls).Pairwise (· ≤ ·)) :
    (∀ before, before <+: calls → ∀ now, (∀ t ∈ clockReadings start before, t ≤ now) →
      0 ≤ (managerAfter start before).current.daysRemaining now ∧
        (managerAfter start before).current.daysRemaining now ≤ 30) ∧
    ∀ before c after, calls = before ++ .changeTier c :: after →
      (usedDays ((managerAfter start before).remainingDays c.countedAt)).isSome = true ∧
      (managerAfter start (before ++ [.changeTier c])).current.paidUntil ≤
        max (managerAfter start before).current.paidUntil c.countedAt +
          (c.changedAt - c.countedAt) := by
  constructor
  · intro before hbefore now hnow
    exact daysRemaining_bounded
      (paidUntil_le (pairwise_clockReadings_mono hclock hbefore) hnow)
  · rintro before c after rfl
    have hthrough := pairwise_clockReadings_mono hclock
      (show before ++ [.changeTier c] <+: before ++ .changeTier c :: after from ⟨after, by simp⟩)
    obtain ⟨hbefore, hcounted, hgap⟩ := clockReadings_changeTier hthrough
    refine ⟨isSome_usedDays (paidUntil_le hbefore hcounted), ?_⟩
    rw [managerAfter, List.foldl_append]
    exact paidUntil_changeStep_le _ c hgap

theorem proRata_bounded_renewed :
    (usedDays ((managerAfter 0 [.subscribe 5 .standard]).remainingDays 7)).isSome = true ∧
      (managerAfter 0
        ([.subscribe 5 .standard] ++ [.changeTier ⟨.premium, 7, 8⟩])).current.paidUntil ≤
        max (managerAfter 0 [.subscribe 5 .standard]).current.paidUntil 7 + (8 - 7) :=
  (proRata_bounded 0 [.subscribe 5 .standard, .changeTier ⟨.premium, 7, 8⟩] (by decide)).2
    [.subscribe 5 .standard] ⟨.premium, 7, 8⟩ [] rfl

/-- A new manager has a period that is over at once; a change of its tier a nanosecond later moves
the end to that time. -/
theorem change_moves_end_forward :
    ¬ ∀ (start : ℤ) (calls : List SubscriptionCall),
      (clockReadings start calls).Pairwise (· ≤ ·) →
      ∀ before c after, calls = before ++ .changeTier c :: after →
        (managerAfter start (before ++ [.changeTier c])).current.paidUntil ≤
          (managerAfter start before).current.paidUntil := by
  intro hall
  have hle := hall 0 [.changeTier ⟨.standard, 1, 1⟩] (by decide) [] ⟨.standard, 1, 1⟩ [] rfl
  obtain ⟨net, hchange⟩ := SubscriptionManager.changeTier_of_ne
    (show (SubscriptionManager.new 0).current.tier ≠ .standard by decide) 1 1
  change ((SubscriptionManager.new 0).changeTier 1 1 .standard).1.current.paidUntil ≤ 0 at hle
  rw [hchange] at hle
  change (1 : ℤ) ≤ 0 at hle
  omega

end VaultKeeper
