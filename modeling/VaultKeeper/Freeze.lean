import Mathlib.Data.Int.Basic

/-!
# The Freeze Manager

`billing/src/freeze.rs`: an account goes from `Active` to `FrozenExport` when a freeze is
triggered, and from there to `HardDeleted` when the export window has passed. Instants
and durations are integers, in nanoseconds; the reading of `Utc::now()` is an argument
of every function that takes one.
-/

namespace VaultKeeper

/-- Freeze states for an account. -/
inductive FreezeState
  | active
  | frozenExport
  | hardDeleted
deriving DecidableEq

/-- The nanoseconds of a second. -/
def nanosPerSecond : ℤ := 1000000000

/-- `Duration::hours`. -/
def durationHours (h : ℤ) : ℤ :=
  h * 3600 * nanosPerSecond

/-- Manages the account freeze lifecycle. -/
structure FreezeManager where
  state : FreezeState
  frozenAt : Option ℤ
  exportDuration : ℤ
deriving DecidableEq

namespace FreezeManager

/-- An active manager with the given export window. -/
def withWindow (exportDuration : ℤ) : FreezeManager where
  state := .active
  frozenAt := none
  exportDuration := exportDuration

/-- A freeze manager with the default 48-hour export window. -/
def new : FreezeManager :=
  withWindow (durationHours 48)

/-- A freeze manager with a custom export window. -/
def withExportDuration (hours : ℤ) : FreezeManager :=
  withWindow (durationHours hours)

/-- Trigger a freeze; only an active account freezes. -/
def triggerFreeze (m : FreezeManager) (now : ℤ) : FreezeManager :=
  if m.state = .active then { m with state := .frozenExport, frozenAt := some now } else m

/-- Hard-delete a frozen account whose export window has passed, and say whether. -/
def checkExportExpiry (m : FreezeManager) (now : ℤ) : Bool × FreezeManager :=
  if m.state ≠ .frozenExport then (false, m)
  else
    match m.frozenAt with
    | some frozenAt =>
        if frozenAt + m.exportDuration ≤ now then (true, { m with state := .hardDeleted })
        else (false, m)
    | none => (false, m)

/-- Remaining export time in whole seconds, 0 when not frozen. -/
def remainingExportSeconds (m : FreezeManager) (now : ℤ) : ℤ :=
  if m.state ≠ .frozenExport then 0
  else
    match m.frozenAt with
    | some frozenAt => max ((frozenAt + m.exportDuration - now).tdiv nanosPerSecond) 0
    | none => 0

/-- Unfreeze a frozen account. -/
def unfreeze (m : FreezeManager) : FreezeManager :=
  if m.state = .frozenExport then { m with state := .active, frozenAt := none } else m

/-- Triggering a freeze leaves no account active, and changes only active ones. -/
theorem triggerFreeze_state (m : FreezeManager) (now : ℤ) :
    (m.triggerFreeze now).state =
      if m.state = .active then .frozenExport else m.state := by
  rw [triggerFreeze]
  split <;> rfl

theorem triggerFreeze_state_ne_active (m : FreezeManager) (now : ℤ) :
    (m.triggerFreeze now).state ≠ .active := by
  rw [triggerFreeze_state]
  split
  · exact FreezeState.noConfusion
  · assumption

/-- What an expiry check does: nothing, or the step from frozen to deleted once the
window that opened at the freeze has passed. -/
theorem checkExportExpiry_cases (m : FreezeManager) (now : ℤ) :
    m.checkExportExpiry now = (false, m) ∨
      (m.state = .frozenExport ∧ (∃ t, m.frozenAt = some t ∧ t + m.exportDuration ≤ now) ∧
        m.checkExportExpiry now = (true, { m with state := .hardDeleted })) := by
  rw [checkExportExpiry]
  by_cases hstate : m.state = .frozenExport
  · cases hfrozen : m.frozenAt with
    | none => simp [hstate]
    | some t =>
        by_cases hnow : t + m.exportDuration ≤ now
        · exact Or.inr ⟨hstate, ⟨t, rfl, hnow⟩, by simp [hstate, hnow]⟩
        · simp [hstate, hnow]
  · simp [hstate]

end FreezeManager

end VaultKeeper
