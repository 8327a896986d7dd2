import Mathlib.Data.List.DropRight
import VaultKeeper.Freeze

/-!
# Runs of a Freeze Manager

A freeze manager is called any number of times, each call at its own reading of the
clock. It starts with any export window, as `new` and `withExportDuration` start with
theirs. What the calls say about the export window is stated on the calls alone:
`sinceUnfreeze` are the calls after the last unfreeze, and `frozenSince` is the instant
of the first trigger among them, where the window opens. The manager agrees with it as
long as nothing was deleted (`Tracks`).

## Main results

* `FreezeManager.tracks_run`: a manager's frozen instant is `frozenSince` of its calls.
* `FreezeManager.export_window_honoured`: what every run does with the window.
-/

namespace VaultKeeper

/-- The functions of a freeze manager that are called after its construction. -/
inductive FreezeOp
  | triggerFreeze
  | checkExportExpiry
  | remainingExportSeconds
  | unfreeze
deriving DecidableEq

/-- A call, at a reading of the clock. -/
structure FreezeCall where
  now : ℤ
  op : FreezeOp
deriving DecidableEq

/-- The calls after the last unfreeze. -/
def sinceUnfreeze (calls : List FreezeCall) : List FreezeCall :=
  calls.rtakeWhile fun c => c.op ≠ .unfreeze

/-- The instant of the first trigger after the last unfreeze. -/
def frozenSince (calls : List FreezeCall) : Option ℤ :=
  ((sinceUnfreeze calls).find? fun c => c.op = .triggerFreeze).map FreezeCall.now

theorem frozenSince_unfreeze (calls : List FreezeCall) (now : ℤ) :
    frozenSince (calls ++ [⟨now, .unfreeze⟩]) = none := by
  simp [frozenSince, sinceUnfreeze]

/-- A trigger opens a window, unless one is open. -/
theorem frozenSince_triggerFreeze (calls : List FreezeCall) (now : ℤ) :
    frozenSince (calls ++ [⟨now, .triggerFreeze⟩]) = (frozenSince calls).or (some now) := by
  rw [frozenSince, sinceUnfreeze, List.rtakeWhile_concat_pos _ _ _ (by simp),
    List.find?_append, Option.map_or]
  rfl

/-- The other calls leave the window alone. -/
theorem frozenSince_append (calls : List FreezeCall) (now : ℤ) {op : FreezeOp}
    (htrigger : op ≠ .triggerFreeze) (hunfreeze : op ≠ .unfreeze) :
    frozenSince (calls ++ [⟨now, op⟩]) = frozenSince calls := by
  have hnone : ([⟨now, op⟩].find? fun c : FreezeCall => c.op = .triggerFreeze) = none := by
    simp [htrigger]
  rw [frozenSince, sinceUnfreeze, List.rtakeWhile_concat_pos _ _ _ (by simpa using hunfreeze),
    List.find?_append, hnone, Option.or_none]
  rfl

/-- A window stays open from the first trigger on, until the next unfreeze. -/
theorem frozenSince_of_trigger {before during : List FreezeCall} {s : ℤ}
    (hfirst : ∀ c ∈ sinceUnfreeze before, c.op ≠ .triggerFreeze)
    (hduring : ∀ c ∈ during, c.op ≠ .unfreeze) :
    frozenSince (before ++ ⟨s, .triggerFreeze⟩ :: during) = some s := by
  induction during using List.reverseRecOn with
  | nil =>
      have hnone : frozenSince before = none := by simpa [frozenSince] using hfirst
      rw [frozenSince_triggerFreeze, hnone]
      rfl
  | append_singleton during c ih =>
      obtain ⟨now, op⟩ := c
      have hopen := ih fun c hc => hduring c (by simp [hc])
      have hop : op ≠ .unfreeze := hduring ⟨now, op⟩ (by simp)
      rw [← List.cons_append, ← List.append_assoc]
      by_cases htrigger : op = .triggerFreeze
      · rw [htrigger, frozenSince_triggerFreeze, hopen]
        rfl
      · rw [frozenSince_append _ _ htrigger hop, hopen]

/-- A window opened at a trigger that no unfreeze followed, and that no trigger had
preceded since the unfreeze before it. -/
theorem exists_trigger_of_frozenSince {calls : List FreezeCall} {s : ℤ}
    (h : frozenSince calls = some s) :
    ∃ before during, calls = before ++ ⟨s, .triggerFreeze⟩ :: during ∧
      (∀ c ∈ sinceUnfreeze before, c.op ≠ .triggerFreeze) ∧
      ∀ c ∈ during, c.op ≠ .unfreeze := by
  induction calls using List.reverseRecOn with
  | nil => simp [frozenSince, sinceUnfreeze] at h
  | append_singleton calls c ih =>
      obtain ⟨now, op⟩ := c
      have hlater : op ≠ .unfreeze → frozenSince calls = some s → ∃ before during,
          calls ++ [⟨now, op⟩] = before ++ ⟨s, .triggerFreeze⟩ :: during ∧
          (∀ c ∈ sinceUnfreeze before, c.op ≠ .triggerFreeze) ∧
          ∀ c ∈ during, c.op ≠ .unfreeze := by
        intro hop hs
        obtain ⟨before, during, rfl, hfirst, hduring⟩ := ih hs
        refine ⟨before, during ++ [⟨now, op⟩], by simp, hfirst, ?_⟩
        intro c hc
        rcases List.mem_append.mp hc with hc | hc
        · exact hduring c hc
        · obtain rfl := List.mem_singleton.mp hc
          exact hop
      cases op with
      | unfreeze => simp [frozenSince_unfreeze] at h
      | checkExportExpiry =>
          rw [frozenSince_append calls now (by decide) (by decide)] at h
          exact hlater (by decide) h
      | remainingExportSeconds =>
          rw [frozenSince_append calls now (by decide) (by decide)] at h
          exact hlater (by decide) h
      | triggerFreeze =>
          rw [frozenSince_triggerFreeze] at h
          cases hs : frozenSince calls with
          | some t =>
              rw [hs] at h
              exact hlater (by decide) (hs.trans h)
          | none =>
              rw [hs] at h
              obtain rfl : now = s := Option.some.inj h
              refine ⟨calls, [], rfl, ?_, by simp⟩
              have hnone := Option.map_eq_none_iff.mp hs
              intro c hc
              simpa using List.find?_eq_none.mp hnone c hc

namespace FreezeManager

/-- The manager a call leaves behind. -/
def call (m : FreezeManager) (c : FreezeCall) : FreezeManager :=
  match c.op with
  | .triggerFreeze => m.triggerFreeze c.now
  | .checkExportExpiry => (m.checkExportExpiry c.now).2
  | .remainingExportSeconds => m
  | .unfreeze => m.unfreeze

/-- The manager a run of calls leaves behind. -/
def run (m : FreezeManager) (calls : List FreezeCall) : FreezeManager :=
  calls.foldl call m

@[simp] theorem run_nil (m : FreezeManager) : m.run [] = m := rfl

@[simp] theorem run_append_singleton (m : FreezeManager) (calls : List FreezeCall)
    (c : FreezeCall) : m.run (calls ++ [c]) = (m.run calls).call c := by
  simp [run]

/-- What a manager keeps of the calls made so far. -/
structure Tracks (exportDuration : ℤ) (calls : List FreezeCall) (m : FreezeManager) : Prop where
  duration : m.exportDuration = exportDuration
  frozenAt_isSome : m.frozenAt.isSome ↔ m.state ≠ .active
  frozenAt_eq : m.state ≠ .hardDeleted → m.frozenAt = frozenSince calls

/-- No call leaves the deleted state. -/
theorem call_hardDeleted {m : FreezeManager} (h : m.state = .hardDeleted) (c : FreezeCall) :
    m.call c = m := by
  obtain ⟨now, op⟩ := c
  cases op <;> simp [call, triggerFreeze, checkExportExpiry, unfreeze, h]

theorem run_hardDeleted {m : FreezeManager} (h : m.state = .hardDeleted)
    (calls : List FreezeCall) : m.run calls = m := by
  induction calls with
  | nil => rfl
  | cons c calls ih => rwa [run, List.foldl_cons, call_hardDeleted h]

/-- An expiry check deletes a frozen account whose window has passed, and no other. -/
theorem checkExportExpiry_fst_iff (m : FreezeManager) (now : ℤ) :
    (m.checkExportExpiry now).1 = true ↔
      m.state = .frozenExport ∧ ∃ s, m.frozenAt = some s ∧ s + m.exportDuration ≤ now := by
  rcases m.checkExportExpiry_cases now with hsame | ⟨hstate, hwindow, hdeleted⟩
  · rw [hsame]
    refine iff_of_false Bool.false_ne_true ?_
    rintro ⟨hstate, s, hs, hle⟩
    rw [checkExportExpiry] at hsame
    simp [hstate, hs, hle] at hsame
  · rw [hdeleted]
    exact iff_of_true rfl ⟨hstate, hwindow⟩

/-- Only an expiry check that says so deletes. -/
theorem checkExportExpiry_of_call_deletes {m : FreezeManager} {c : FreezeCall}
    (hne : m.state ≠ .hardDeleted) (h : (m.call c).state = .hardDeleted) :
    c.op = .checkExportExpiry ∧ (m.checkExportExpiry c.now).1 = true := by
  obtain ⟨now, op⟩ := c
  cases op with
  | triggerFreeze =>
      change (m.triggerFreeze now).state = .hardDeleted at h
      rw [triggerFreeze_state] at h
      split at h
      · cases h
      · exact absurd h hne
  | checkExportExpiry =>
      refine ⟨rfl, ?_⟩
      rcases m.checkExportExpiry_cases now with hsame | ⟨-, -, hgone⟩
      · exact absurd (by simpa [call, hsame] using h) hne
      · rw [hgone]
  | remainingExportSeconds => exact absurd h hne
  | unfreeze =>
      change m.unfreeze.state = .hardDeleted at h
      rw [unfreeze] at h
      split at h
      · cases h
      · exact absurd h hne

/-- One call keeps the track of the calls. -/
theorem Tracks.call {d : ℤ} {calls : List FreezeCall} {m : FreezeManager} (h : Tracks d calls m)
    (c : FreezeCall) : Tracks d (calls ++ [c]) (m.call c) := by
  obtain ⟨now, op⟩ := c
  by_cases hdeleted : m.state = .hardDeleted
  · rw [call_hardDeleted hdeleted]
    exact ⟨h.duration, h.frozenAt_isSome, fun hne => absurd hdeleted hne⟩
  have hsince := h.frozenAt_eq hdeleted
  cases op with
  | triggerFreeze =>
      rw [FreezeManager.call, triggerFreeze]
      by_cases hactive : m.state = .active
      · have hnone : m.frozenAt = none := by
          simpa [hactive] using h.frozenAt_isSome
        rw [if_pos hactive]
        refine ⟨h.duration, by simp, fun _ => ?_⟩
        rw [frozenSince_triggerFreeze, ← hsince, hnone]
        rfl
      · obtain ⟨s, hs⟩ := Option.isSome_iff_exists.mp (h.frozenAt_isSome.mpr hactive)
        rw [if_neg hactive]
        refine ⟨h.duration, h.frozenAt_isSome, fun _ => ?_⟩
        rw [frozenSince_triggerFreeze, ← hsince, hs]
        rfl
  | checkExportExpiry =>
      rw [FreezeManager.call]
      rcases m.checkExportExpiry_cases now with hsame | ⟨hfrozen, -, hgone⟩
      · simp only [hsame]
        refine ⟨h.duration, h.frozenAt_isSome, fun _ => ?_⟩
        rw [frozenSince_append _ _ (by decide) (by decide), hsince]
      · simp only [hgone]
        refine ⟨h.duration, ?_, fun hne => absurd rfl hne⟩
        simpa [hfrozen] using h.frozenAt_isSome
  | remainingExportSeconds =>
      refine ⟨h.duration, h.frozenAt_isSome, fun _ => ?_⟩
      rw [frozenSince_append _ _ (by decide) (by decide), ← hsince]
      rfl
  | unfreeze =>
      rw [FreezeManager.call, unfreeze]
      by_cases hfrozen : m.state = .frozenExport
      · rw [if_pos hfrozen]
        exact ⟨h.duration, by simp, fun _ => (frozenSince_unfreeze _ _).symm⟩
      · have hactive : m.state = .active := by
          cases hstate : m.state <;> simp_all
        have hnone : m.frozenAt = none := by
          simpa [hactive] using h.frozenAt_isSome
        rw [if_neg hfrozen]
        exact ⟨h.duration, h.frozenAt_isSome, fun _ => by rw [hnone, frozenSince_unfreeze]⟩

/-- **The frozen instant**: every run from an active manager keeps the track of its
calls. -/
theorem tracks_run (d : ℤ) (calls : List FreezeCall) :
    Tracks d calls ((withWindow d).run calls) := by
  induction calls using List.reverseRecOn with
  | nil => exact ⟨rfl, by simp [withWindow], fun _ => rfl⟩
  | append_singleton calls c ih =>
      rw [run_append_singleton]
      exact ih.call c

/-- A manager that is not deleted is frozen exactly when a window is open. -/
theorem Tracks.frozenExport_iff {d : ℤ} {calls : List FreezeCall} {m : FreezeManager}
    (h : Tracks d calls m) (hne : m.state ≠ .hardDeleted) :
    m.state = .frozenExport ↔ (frozenSince calls).isSome := by
  rw [← h.frozenAt_eq hne, h.frozenAt_isSome]
  cases hstate : m.state <;> simp_all

/-- A run that is not deleted was not deleted at any time before. -/
theorem ne_hardDeleted_of_append {m : FreezeManager} {calls later : List FreezeCall}
    (h : (m.run (calls ++ later)).state ≠ .hardDeleted) : (m.run calls).state ≠ .hardDeleted := by
  intro hdeleted
  have hsame : m.run (calls ++ later) = m.run calls := by
    rw [run, List.foldl_append]
    exact run_hardDeleted hdeleted later
  exact h (hsame ▸ hdeleted)

/-- The calls leave a manager frozen since the instant `s`: a trigger at `s`, the first
since the unfreeze before it, that no unfreeze followed, and every state from it on. -/
def FrozenThroughout (d : ℤ) (calls : List FreezeCall) (s : ℤ) : Prop :=
  ∃ before during, calls = before ++ ⟨s, .triggerFreeze⟩ :: during ∧
    (∀ c ∈ sinceUnfreeze before, c.op ≠ .triggerFreeze) ∧
    (∀ c ∈ during, c.op ≠ .unfreeze) ∧
    ∀ k, ((withWindow d).run (before ++ ⟨s, .triggerFreeze⟩ :: during.take k)).state =
      .frozenExport

/-- A manager whose window is open has been frozen since it opened. -/
theorem frozenThroughout_of_frozenSince {d : ℤ} {calls : List FreezeCall} {s : ℤ}
    (hne : ((withWindow d).run calls).state ≠ .hardDeleted) (h : frozenSince calls = some s) :
    FrozenThroughout d calls s := by
  obtain ⟨before, during, rfl, hfirst, hduring⟩ := exists_trigger_of_frozenSince h
  refine ⟨before, during, rfl, hfirst, hduring, fun k => ?_⟩
  have hopen : frozenSince (before ++ ⟨s, .triggerFreeze⟩ :: during.take k) = some s :=
    frozenSince_of_trigger hfirst fun c hc => hduring c (List.mem_of_mem_take hc)
  have hsplit : before ++ ⟨s, .triggerFreeze⟩ :: during =
      (before ++ ⟨s, .triggerFreeze⟩ :: during.take k) ++ during.drop k := by simp
  rw [hsplit] at hne
  rw [(tracks_run d _).frozenExport_iff (ne_hardDeleted_of_append hne), hopen]
  rfl

/-- While time remains, an expiry check does nothing. -/
theorem checkExportExpiry_of_remaining {m : FreezeManager} {now : ℤ}
    (h : 0 < m.remainingExportSeconds now) : m.checkExportExpiry now = (false, m) := by
  rcases m.checkExportExpiry_cases now with hsame | ⟨hstate, ⟨s, hs, hle⟩, -⟩
  · exact hsame
  · have hpassed := Int.tdiv_nonneg (show 0 ≤ -(s + m.exportDuration - now) by omega)
      (show 0 ≤ nanosPerSecond by decide)
    rw [Int.neg_tdiv] at hpassed
    rw [remainingExportSeconds] at h
    simp only [hstate, ne_eq, not_true_eq_false, if_false, hs] at h
    omega

/-- What a manager with a given window does after any calls. -/
structure WindowHonoured (d : ℤ) (calls : List FreezeCall) : Prop where
  frozenAt_isSome : ((withWindow d).run calls).frozenAt.isSome ↔
    ((withWindow d).run calls).state ≠ .active
  deleted_forever : ((withWindow d).run calls).state = .hardDeleted →
    ∀ later, ((withWindow d).run (calls ++ later)).state = .hardDeleted
  deleted_after_window : ∀ c, ((withWindow d).run calls).state ≠ .hardDeleted →
    ((withWindow d).run (calls ++ [c])).state = .hardDeleted →
      c.op = .checkExportExpiry ∧ ∃ s, FrozenThroughout d calls s ∧ s ≤ c.now - d
  checkExportExpiry_iff : ((withWindow d).run calls).state ≠ .hardDeleted → ∀ now,
    (((withWindow d).run calls).checkExportExpiry now).1 = true ↔
      ∃ s, frozenSince calls = some s ∧ s ≤ now - d
  remaining : ∀ now, 0 < ((withWindow d).run calls).remainingExportSeconds now →
    ((withWindow d).run calls).checkExportExpiry now = (false, (withWindow d).run calls)

/-- **The export window**: for every window and after every sequence of calls, deletion
happens only in an expiry check, and only when the account has been frozen for the length
of the window without a break, counted from the first trigger after the last unfreeze. -/
theorem export_window_honoured (d : ℤ) (calls : List FreezeCall) : WindowHonoured d calls := by
  have htracks := tracks_run d calls
  have hcheck : ((withWindow d).run calls).state ≠ .hardDeleted → ∀ now,
      (((withWindow d).run calls).checkExportExpiry now).1 = true ↔
        ∃ s, frozenSince calls = some s ∧ s ≤ now - d := by
    intro hne now
    rw [checkExportExpiry_fst_iff, htracks.frozenAt_eq hne, htracks.duration,
      htracks.frozenExport_iff hne]
    constructor
    · rintro ⟨-, s, hs, hle⟩
      exact ⟨s, hs, by omega⟩
    · rintro ⟨s, hs, hle⟩
      exact ⟨by simp [hs], s, hs, by omega⟩
  refine ⟨htracks.frozenAt_isSome, ?_, ?_, hcheck, fun _ => checkExportExpiry_of_remaining⟩
  · intro hdeleted later
    have hsame : (withWindow d).run (calls ++ later) = (withWindow d).run calls := by
      rw [run, List.foldl_append]
      exact run_hardDeleted hdeleted later
    rw [hsame, hdeleted]
  · intro c hne hdeleted
    rw [run_append_singleton] at hdeleted
    obtain ⟨hop, htrue⟩ := checkExportExpiry_of_call_deletes hne hdeleted
    obtain ⟨s, hs, hle⟩ := (hcheck hne c.now).mp htrue
    exact ⟨hop, s, frozenThroughout_of_frozenSince hne hs, hle⟩

end FreezeManager

end VaultKeeper
