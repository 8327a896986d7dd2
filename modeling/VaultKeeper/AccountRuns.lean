import Mathlib.Tactic.Linarith
import VaultKeeper.Account
import VaultKeeper.Runs

/-!
# Runs of a Billing Account

Two machines over `BillingAccount`: `callStep` takes the three operations that move the
balance, and `lifecycleStep` interleaves them with the expiry check of the freeze
manager. A run starts from `BillingAccount.new`.

The balance and the freeze state are updated by different operations, and two of the
links between them are missing: `request_withdrawal` does not freeze an account it
empties, and `deposit` does not thaw an account it refills.

## Main results

* `solvent_iff`: no account without a positive balance stays active, exactly in the runs
  in which no active account is emptied by a withdrawal.
* `deletion_insolvent`: no positive balance is hard-deleted, in the runs in which no
  deposit lifts a frozen account above zero.
-/

namespace VaultKeeper

/-- The operations that move the balance. -/
inductive AccountOp
  | deposit (amount : Decimal) (description : String)
  | charge (amount : Decimal) (description : String)
  | requestWithdrawal (amount : Decimal) (description : String)

/-- The account an operation leaves behind, and how it ended. -/
def AccountOp.apply (op : AccountOp) (a : BillingAccount) (env : Env) :
    BillingAccount × CallResult :=
  match op with
  | .deposit amount description => a.deposit env amount description
  | .charge amount description => a.charge env amount description
  | .requestWithdrawal amount description => a.requestWithdrawal env amount description

/-- One call. -/
def callStep (a : BillingAccount) (c : Env × AccountOp) : BillingAccount :=
  (c.2.apply a c.1).1

/-- The events of an account's life: a call, or an expiry check at some instant. -/
inductive LifecycleEvent
  | call (env : Env) (op : AccountOp)
  | checkExportExpiry (now : ℤ)

/-- The readings of the clock at an event, in order: a charge may read it twice. -/
def LifecycleEvent.readings : LifecycleEvent → List ℤ
  | .call env (.charge _ _) => [env.now, env.freezeNow]
  | .call env _ => [env.now]
  | .checkExportExpiry now => [now]

/-- One event. -/
def lifecycleStep (a : BillingAccount) : LifecycleEvent → BillingAccount
  | .call env op => callStep a (env, op)
  | .checkExportExpiry now => (a.checkExportExpiry now).2

/-! ### Signs of sums and differences -/

/-- A sum of decimals that is positive stays positive when rounded. -/
theorem Decimal.add_pos {a b c : Decimal} (h : a.add b = some c) (hpos : 0 < a.val + b.val) :
    0 < c.val := by
  obtain ⟨i, hi⟩ := a.exists_units
  obtain ⟨j, hj⟩ := b.exists_units
  have hsum : a.val + b.val = ((i + j : ℤ) : ℚ) / 10 ^ 28 := by
    rw [hi, hj]
    push_cast
    ring
  rw [Decimal.add, hsum] at h
  rw [hsum] at hpos
  exact Decimal.round_pos h hpos

/-- A difference of decimals that is positive stays positive when rounded. -/
theorem Decimal.sub_pos {a b c : Decimal} (h : a.sub b = some c) (hpos : b.val < a.val) :
    0 < c.val := by
  obtain ⟨i, hi⟩ := a.exists_units
  obtain ⟨j, hj⟩ := b.exists_units
  have hdiff : a.val - b.val = ((i - j : ℤ) : ℚ) / 10 ^ 28 := by
    rw [hi, hj]
    push_cast
    ring
  have hlt : 0 < a.val - b.val := by linarith
  rw [Decimal.sub, hdiff] at h
  rw [hdiff] at hlt
  exact Decimal.round_pos h hlt

theorem Decimal.add_nonpos {a b c : Decimal} (h : a.add b = some c)
    (hle : a.val + b.val ≤ 0) : c.val ≤ 0 :=
  Decimal.round_nonpos h hle

theorem Decimal.sub_nonpos {a b c : Decimal} (h : a.sub b = some c) (hle : a.val ≤ b.val) :
    c.val ≤ 0 :=
  Decimal.round_nonpos h (by linarith)

/-- Adding to zero is exact. -/
theorem Decimal.add_to_zero (a : Decimal) : Decimal.zero.add a = some a := by
  rw [Decimal.add, Decimal.zero_val, zero_add]
  exact Decimal.round_of_representable a.representable

/-- Subtracting a decimal from itself leaves zero. -/
theorem Decimal.sub_same {a b : Decimal} (h : b.val = a.val) :
    ∃ c, a.sub b = some c ∧ c.val = 0 := by
  have hsub : a.sub b = some .zero := by
    rw [Decimal.sub, h, sub_self, ← Decimal.zero_val]
    exact Decimal.round_of_representable Decimal.zero.representable
  exact ⟨.zero, hsub, Decimal.zero_val⟩

namespace BillingAccount

/-- A new account exists, is active, and holds no negative balance. -/
theorem new_spec (id : AccountId) (env : Env) (initialDeposit : Decimal) :
    ∃ a, new id env initialDeposit = some a ∧ a.freezeManager = .new ∧ 0 ≤ a.balance.val := by
  rw [new]
  by_cases hpos : 0 < initialDeposit.val
  · have hnot : ¬ initialDeposit.val ≤ 0 := not_le.mpr hpos
    simp only [hpos, if_true, deposit, hnot, if_false, Decimal.add_to_zero, FreezeManager.new]
    exact ⟨_, rfl, rfl, hpos.le⟩
  · rw [if_neg hpos]
    exact ⟨_, rfl, rfl, by simp⟩

end BillingAccount

/-! ### Solvency -/

/-- An active account holds no negative balance. -/
def NonNegativeWhileActive (a : BillingAccount) : Prop :=
  a.freezeManager.state = .active → 0 ≤ a.balance.val

/-- A successful call does not leave an active account without a positive balance. -/
def LeavesSolvent (a : BillingAccount) (c : Env × AccountOp) : Prop :=
  (c.2.apply a c.1).2 = .ok → (callStep a c).balance.val ≤ 0 →
    (callStep a c).freezeManager.state ≠ .active

/-- The call withdraws the whole balance of an active account. -/
def Empties (a : BillingAccount) (c : Env × AccountOp) : Prop :=
  ∃ amount description, c.2 = .requestWithdrawal amount description ∧
    a.freezeManager.state = .active ∧ minWithdrawal.val ≤ amount.val ∧
    amount.val = a.balance.val

/-- A call that leaves the account alone does not succeed, and so is solvent. -/
theorem leavesSolvent_of_unchanged {a : BillingAccount} {c : Env × AccountOp}
    (h : (c.2.apply a c.1).2 ≠ .ok) : LeavesSolvent a c :=
  fun hok => absurd hok h

/-- A call that ends with a positive balance is solvent and keeps the invariant. -/
theorem leavesSolvent_of_pos {a : BillingAccount} {c : Env × AccountOp}
    (h : 0 < (callStep a c).balance.val) :
    LeavesSolvent a c ∧ NonNegativeWhileActive (callStep a c) :=
  ⟨fun _ hle => absurd h (not_lt.mpr hle), fun _ => h.le⟩

/-- A deposit is solvent and keeps the invariant: it adds to a balance that is not
negative while the account is active. -/
theorem deposit_solvent {a : BillingAccount} (ha : NonNegativeWhileActive a) (env : Env)
    (amount : Decimal) (description : String) :
    LeavesSolvent a (env, .deposit amount description) ∧
      NonNegativeWhileActive (callStep a (env, .deposit amount description)) := by
  rcases a.deposit_cases env amount description with
    ⟨hsame, herr⟩ | ⟨balance, hpos, -, hadd, hok⟩
  · exact ⟨leavesSolvent_of_unchanged herr, by simpa [callStep, AccountOp.apply, hsame] using ha⟩
  · have hcall : callStep a (env, .deposit amount description) =
        ({ a with balance := balance } : BillingAccount).recordTransaction env .deposit amount
          description := by
      simp [callStep, AccountOp.apply, hok]
    by_cases hstate : a.freezeManager.state = .active
    · refine leavesSolvent_of_pos ?_
      rw [hcall]
      exact Decimal.add_pos hadd (by have := ha hstate; linarith)
    · refine ⟨fun _ _ => ?_, fun hactive => ?_⟩
      · rw [hcall]
        exact hstate
      · rw [hcall] at hactive
        exact absurd hactive hstate

/-- A charge is solvent and keeps the invariant: where nothing is left it freezes. -/
theorem charge_solvent {a : BillingAccount} (ha : NonNegativeWhileActive a) (env : Env)
    (amount : Decimal) (description : String) :
    LeavesSolvent a (env, .charge amount description) ∧
      NonNegativeWhileActive (callStep a (env, .charge amount description)) := by
  rcases a.charge_cases env amount description with
    ⟨hsame, herr⟩ | ⟨balance, -, -, hok⟩
  · exact ⟨leavesSolvent_of_unchanged herr, by simpa [callStep, AccountOp.apply, hsame] using ha⟩
  · by_cases hbal : balance.val ≤ 0
    · have hfrozen : (callStep a (env, .charge amount description)).freezeManager.state ≠
          .active := by
        simpa [callStep, AccountOp.apply, hok, hbal] using
          a.freezeManager.triggerFreeze_state_ne_active env.freezeNow
      exact ⟨fun _ _ => hfrozen, fun hactive => absurd hactive hfrozen⟩
    · refine leavesSolvent_of_pos ?_
      simpa [callStep, AccountOp.apply, hok] using hbal

/-- A withdrawal is solvent exactly when it does not empty an active account. -/
theorem requestWithdrawal_solvent_iff (a : BillingAccount) (env : Env) (amount : Decimal)
    (description : String) :
    LeavesSolvent a (env, .requestWithdrawal amount description) ↔
      ¬ Empties a (env, .requestWithdrawal amount description) := by
  constructor
  · rintro hsolvent ⟨_, _, hop, hactive, hmin, hall⟩
    cases hop
    obtain ⟨rest, hsub, hrest⟩ := Decimal.sub_same hall
    have hcall : a.requestWithdrawal env amount description =
        (({ a with balance := rest } : BillingAccount).recordTransaction env .withdrawal amount
          description, .ok) := by
      rw [hall] at hmin
      simp [BillingAccount.requestWithdrawal, hmin, hall, hactive, hsub]
    refine hsolvent ?_ ?_ ?_
    · simp [AccountOp.apply, hcall]
    · simp [callStep, AccountOp.apply, hcall, hrest]
    · simp [callStep, AccountOp.apply, hcall, hactive]
  · intro hempty
    rcases a.requestWithdrawal_cases env amount description with
      ⟨-, herr⟩ | ⟨balance, hmin, hle, hactive, hsub, hok⟩
    · exact leavesSolvent_of_unchanged herr
    · have hlt : amount.val < a.balance.val :=
        lt_of_le_of_ne hle fun heq => hempty ⟨_, _, rfl, hactive, hmin, heq⟩
      refine (leavesSolvent_of_pos ?_).1
      simpa [callStep, AccountOp.apply, hok] using Decimal.sub_pos hsub hlt

/-- A withdrawal keeps the invariant: it takes at most the balance. -/
theorem requestWithdrawal_nonNegative {a : BillingAccount} (ha : NonNegativeWhileActive a)
    (env : Env) (amount : Decimal) (description : String) :
    NonNegativeWhileActive (callStep a (env, .requestWithdrawal amount description)) := by
  rcases a.requestWithdrawal_cases env amount description with
    ⟨hsame, -⟩ | ⟨balance, -, hle, -, hsub, hok⟩
  · simpa [callStep, AccountOp.apply, hsame] using ha
  · intro _
    rcases hle.eq_or_lt with heq | hlt
    · obtain ⟨rest, hrest, hzero⟩ := Decimal.sub_same heq
      obtain rfl : balance = rest := Option.some.inj (hsub.symm.trans hrest)
      simp [callStep, AccountOp.apply, hok, hzero]
    · simpa [callStep, AccountOp.apply, hok] using (Decimal.sub_pos hsub hlt).le

/-- One call from an account that is not negative while active: it is solvent exactly
when it does not empty an active account. -/
theorem leavesSolvent_iff {a : BillingAccount} (ha : NonNegativeWhileActive a)
    (c : Env × AccountOp) : LeavesSolvent a c ↔ ¬ Empties a c := by
  obtain ⟨env, op⟩ := c
  cases op with
  | deposit amount description =>
      exact iff_of_true (deposit_solvent ha env amount description).1
        fun ⟨_, _, hop, _⟩ => AccountOp.noConfusion hop
  | charge amount description =>
      exact iff_of_true (charge_solvent ha env amount description).1
        fun ⟨_, _, hop, _⟩ => AccountOp.noConfusion hop
  | requestWithdrawal amount description =>
      exact requestWithdrawal_solvent_iff a env amount description

/-- One call keeps the invariant. -/
theorem callStep_nonNegative {a : BillingAccount} (ha : NonNegativeWhileActive a)
    (c : Env × AccountOp) : NonNegativeWhileActive (callStep a c) := by
  obtain ⟨env, op⟩ := c
  cases op with
  | deposit amount description => exact (deposit_solvent ha env amount description).2
  | charge amount description => exact (charge_solvent ha env amount description).2
  | requestWithdrawal amount description =>
      exact requestWithdrawal_nonNegative ha env amount description

/-- **Solvency**: from a new account, every successful call leaves an account without a
positive balance frozen or deleted exactly when no call of the run empties an active
account by a withdrawal. -/
theorem solvent_iff (id : AccountId) (env : Env) (initialDeposit : Decimal)
    (calls : List (Env × AccountOp)) :
    ∃ a, BillingAccount.new id env initialDeposit = some a ∧
      ((∀ v ∈ Runs.visits callStep a calls, LeavesSolvent v.1 v.2) ↔
        ∀ v ∈ Runs.visits callStep a calls, ¬ Empties v.1 v.2) := by
  obtain ⟨a, hnew, -, hbal⟩ := BillingAccount.new_spec id env initialDeposit
  refine ⟨a, hnew, Runs.visits_iff callStep (I := NonNegativeWhileActive)
    (P := LeavesSolvent) (G := fun b c => ¬ Empties b c) ?_ ?_ ?_⟩
  · exact fun _ c ha => leavesSolvent_iff ha c
  · exact fun _ c ha _ => callStep_nonNegative ha c
  · exact fun _ => hbal

/-- The account of a new user after a deposit of 100 at instant 0. -/
def accountOf100 : BillingAccount where
  id := ⟨"user-1"⟩
  balance := .ofNat 100 (by decide)
  transactions :=
    [{ id := "tx-0", accountId := ⟨"user-1"⟩, txType := .deposit
       amount := .ofNat 100 (by decide), balanceAfter := .ofNat 100 (by decide), timestamp := 0
       description := "Initial deposit" }]
  freezeManager := .new

theorem new_accountOf100 :
    BillingAccount.new ⟨"user-1"⟩ ⟨0, "tx-0", 0⟩ (.ofNat 100 (by decide)) = some accountOf100 := by
  decide +kernel

/-- The withdrawal of all 100 succeeds and leaves an active account with nothing. -/
theorem withdrawal_leaves_active :
    ¬ ∀ id env initialDeposit a, BillingAccount.new id env initialDeposit = some a →
      ∀ calls, ∀ v ∈ Runs.visits callStep a calls, LeavesSolvent v.1 v.2 := by
  intro hall
  have hsolvent := hall _ _ _ _ new_accountOf100
    [(⟨1, "tx-1", 1⟩, .requestWithdrawal (.ofNat 100 (by decide)) "Withdrawal")] _
    (List.mem_singleton_self _)
  exact hsolvent (by decide +kernel) (by decide +kernel) (by decide +kernel)

/-! ### Deletion -/

/-- A frozen account has nothing left. -/
def NothingLeftWhileFrozen (a : BillingAccount) : Prop :=
  a.freezeManager.state = .frozenExport → a.balance.val ≤ 0

/-- The event is a deposit that brings a frozen account above zero. -/
def RescuesFrozen (a : BillingAccount) (e : LifecycleEvent) : Prop :=
  ∃ env amount description, e = .call env (.deposit amount description) ∧
    a.freezeManager.state = .frozenExport ∧ 0 < a.balance.val + amount.val

/-- An expiry check that hard-deletes the account finds nothing left on it. -/
def DeletesInsolvent (a : BillingAccount) (e : LifecycleEvent) : Prop :=
  ∀ now, e = .checkExportExpiry now → a.freezeManager.state ≠ .hardDeleted →
    (lifecycleStep a e).freezeManager.state = .hardDeleted → a.balance.val ≤ 0

/-- An expiry check deletes frozen accounts only. -/
theorem deletesInsolvent_of_nothingLeft {a : BillingAccount} (ha : NothingLeftWhileFrozen a)
    (e : LifecycleEvent) : DeletesInsolvent a e := by
  rintro now rfl hbefore hafter
  rcases a.freezeManager.checkExportExpiry_cases now with hsame | ⟨hfrozen, -, -⟩
  · refine absurd hafter ?_
    simpa [lifecycleStep, BillingAccount.checkExportExpiry, hsame] using hbefore
  · exact ha hfrozen

/-- A charge keeps the invariant: a freeze is triggered only where nothing is left, and
on a frozen account less is left than before. -/
theorem charge_nothingLeft {a : BillingAccount} (ha : NothingLeftWhileFrozen a) (env : Env)
    (amount : Decimal) (description : String) :
    NothingLeftWhileFrozen (callStep a (env, .charge amount description)) := by
  rcases a.charge_cases env amount description with ⟨hsame, -⟩ | ⟨balance, hpos, hsub, hok⟩
  · simpa [callStep, AccountOp.apply, hsame] using ha
  · intro hstate
    by_cases hbal : balance.val ≤ 0
    · simpa [callStep, AccountOp.apply, hok] using hbal
    · have hfrozen : a.freezeManager.state = .frozenExport := by
        simpa [callStep, AccountOp.apply, hok, hbal] using hstate
      have hle : balance.val ≤ 0 :=
        Decimal.sub_nonpos hsub ((ha hfrozen).trans hpos.le)
      exact absurd hle hbal

/-- One event that does not rescue a frozen account keeps the invariant. -/
theorem lifecycleStep_nothingLeft {a : BillingAccount} (ha : NothingLeftWhileFrozen a)
    (e : LifecycleEvent) (he : ¬ RescuesFrozen a e) :
    NothingLeftWhileFrozen (lifecycleStep a e) := by
  cases e with
  | checkExportExpiry now =>
      rcases a.freezeManager.checkExportExpiry_cases now with hsame | ⟨-, -, hdeleted⟩
      · simpa [lifecycleStep, BillingAccount.checkExportExpiry, hsame] using ha
      · simp [NothingLeftWhileFrozen, lifecycleStep, BillingAccount.checkExportExpiry, hdeleted]
  | call env op =>
      cases op with
      | charge amount description => exact charge_nothingLeft ha env amount description
      | deposit amount description =>
          rcases a.deposit_cases env amount description with
            ⟨hsame, -⟩ | ⟨balance, -, -, hadd, hok⟩
          · simpa [lifecycleStep, callStep, AccountOp.apply, hsame] using ha
          · intro hstate
            have hfrozen : a.freezeManager.state = .frozenExport := by
              simpa [lifecycleStep, callStep, AccountOp.apply, hok] using hstate
            have hsum : a.balance.val + amount.val ≤ 0 :=
              not_lt.mp fun hpos => he ⟨env, amount, description, rfl, hfrozen, hpos⟩
            simpa [lifecycleStep, callStep, AccountOp.apply, hok] using
              Decimal.add_nonpos hadd hsum
      | requestWithdrawal amount description =>
          rcases a.requestWithdrawal_cases env amount description with
            ⟨hsame, -⟩ | ⟨balance, -, -, hactive, -, hok⟩
          · simpa [lifecycleStep, callStep, AccountOp.apply, hsame] using ha
          · intro hstate
            simp [lifecycleStep, callStep, AccountOp.apply, hok, hactive] at hstate

/-- **Deletion**: in a run from a new account in which no deposit brings a frozen account
above zero, whatever the clock shows, an expiry check deletes no positive balance. -/
theorem deletion_insolvent {id : AccountId} {env : Env} {initialDeposit : Decimal}
    {a : BillingAccount} (hnew : BillingAccount.new id env initialDeposit = some a)
    (events : List LifecycleEvent)
    (hrun : ∀ v ∈ Runs.visits lifecycleStep a events, ¬ RescuesFrozen v.1 v.2) :
    ∀ v ∈ Runs.visits lifecycleStep a events, DeletesInsolvent v.1 v.2 := by
  intro v hv
  have hstart : NothingLeftWhileFrozen a := by
    obtain ⟨b, hb, hfresh, -⟩ := BillingAccount.new_spec id env initialDeposit
    obtain rfl : a = b := Option.some.inj (hnew.symm.trans hb)
    intro hfrozen
    rw [hfresh] at hfrozen
    cases hfrozen
  have hinv := Runs.invariant lifecycleStep (I := NothingLeftWhileFrozen)
    (G := fun b e => ¬ RescuesFrozen b e) (fun _ e hb he => lifecycleStep_nothingLeft hb e he)
    hstart hrun v hv
  exact deletesInsolvent_of_nothingLeft hinv.1 v.2

/-- A charge of everything. -/
def chargeAll : LifecycleEvent :=
  .call ⟨1, "tx-1", 1⟩ (.charge (.ofNat 100 (by decide)) "Storage")

/-- An expiry check two days after the charge. -/
def expiryCheck : LifecycleEvent :=
  .checkExportExpiry (1 + durationHours 48)

theorem deletion_insolvent_charged :
    (lifecycleStep (lifecycleStep accountOf100 chargeAll) expiryCheck).freezeManager.state =
        .hardDeleted ∧
      DeletesInsolvent (lifecycleStep accountOf100 chargeAll) expiryCheck := by
  refine ⟨by decide +kernel, deletion_insolvent new_accountOf100 [chargeAll, expiryCheck] ?_ _
    (List.mem_of_getElem? (i := 1) rfl)⟩
  simp [RescuesFrozen, chargeAll, expiryCheck]

/-- Charge everything, pay in 50 a moment later, and check for expiry two days later: the
check deletes the account with 50 on it. -/
theorem deletion_of_positive_balance :
    ¬ ∀ id env initialDeposit a, BillingAccount.new id env initialDeposit = some a →
      ∀ events : List LifecycleEvent, (events.flatMap LifecycleEvent.readings).Pairwise (· ≤ ·) →
        ∀ v ∈ Runs.visits lifecycleStep a events, DeletesInsolvent v.1 v.2 := by
  intro hall
  have hdelete := hall _ _ _ _ new_accountOf100
    [chargeAll, .call ⟨2, "tx-2", 2⟩ (.deposit (.ofNat 50 (by decide)) "Top-up"), expiryCheck]
    (by decide) _ (List.mem_of_getElem? (i := 2) rfl)
  exact absurd (hdelete _ rfl (by decide +kernel) (by decide +kernel)) (by decide +kernel)

end VaultKeeper
