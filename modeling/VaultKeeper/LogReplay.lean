import VaultKeeper.Conservation

/-!
# What the Log Tells

`billing/src/account.rs` over `billing/src/freeze.rs`. The freeze state of an account is set
while its charges happen, and the transactions are all that is kept of them. They tell it
nevertheless: an account is frozen exactly when a charge in its log left nothing, and has been
since the first of these.

The instant of the freeze is not in the log. The charge reads the clock for its transaction,
and once more for the freeze, so that the account is frozen some time after the timestamp of
the charge, and deleted once an expiry check came two days after that time. Under a clock that
does not go back, it is no later than the timestamp of the next transaction.

## Main results

* `ToldByLog.step`: an event keeps the account told by its log.
* `ToldByLog.frozenAt_step`: which event sets the instant of the freeze.
* `TimedByLog.step`: and between which timestamps it lies.
* `log_tells`: the balance, the freeze state and what the account may do, from the log.
-/

namespace VaultKeeper

/-- The transaction is a charge that left nothing. -/
def Transaction.LeavesNothing (tx : Transaction) : Prop :=
  tx.txType = .billingCharge ∧ tx.balanceAfter.val ≤ 0

/-- A charge in the log left nothing. -/
def FrozenByLog (txs : List Transaction) : Prop :=
  ∃ tx ∈ txs, tx.LeavesNothing

theorem frozenByLog_concat (txs : List Transaction) (tx : Transaction) :
    FrozenByLog (txs ++ [tx]) ↔ FrozenByLog txs ∨ tx.LeavesNothing := by
  simp only [FrozenByLog, List.mem_append, List.mem_singleton, or_and_right, exists_or,
    exists_eq_left]

/-- The event is the call that puts the first charge that left nothing into the log, and the
clock it reads for the freeze shows `t`. -/
def FreezesAt (a : BillingAccount) (e : LifecycleEvent) (t : ℤ) : Prop :=
  ∃ env op, e = .call env op ∧ env.freezeNow = t ∧ ¬ FrozenByLog a.transactions ∧
    FrozenByLog (lifecycleStep a e).transactions

/-- The account is told by its log: the balance is the last one of it, the account is frozen
when a charge in it left nothing, and no withdrawal is after this charge. -/
structure ToldByLog (a : BillingAccount) : Prop where
  balance : EndsAtBalance a
  window : a.freezeManager.exportDuration = durationHours 48
  frozenAt : (∃ t, a.freezeManager.frozenAt = some t) ↔ FrozenByLog a.transactions
  active : a.freezeManager.state = .active ↔ ¬ FrozenByLog a.transactions
  withdrawal : ∀ earlier tx later, a.transactions = earlier ++ tx :: later →
    tx.txType = .withdrawal → ¬ FrozenByLog earlier

variable {a : BillingAccount}

/-! ### What a call does to the freeze manager -/

/-- The freeze manager of an account after an operation that settles: it freezes by a charge
that leaves nothing, unless it is frozen. -/
theorem ToldByLog.freezeAfter (h : ToldByLog a) (op : AccountOp) (env : Env)
    (balance : Decimal) :
    let m := op.freezeAfter a.freezeManager env balance
    let tx := op.transaction a env balance
    m.exportDuration = a.freezeManager.exportDuration ∧
      (m.state = .active ↔ a.freezeManager.state = .active ∧ ¬ tx.LeavesNothing) ∧
      ∀ t, m.frozenAt = some t ↔ a.freezeManager.frozenAt = some t ∨
        env.freezeNow = t ∧ ¬ FrozenByLog a.transactions ∧ tx.LeavesNothing := by
  intro m tx
  by_cases hleaves : tx.LeavesNothing
  · -- only a charge leaves nothing in this sense
    obtain ⟨amount, description, rfl⟩ : ∃ amount description, op = .charge amount description := by
      cases op with
      | charge amount description => exact ⟨amount, description, rfl⟩
      | deposit amount description => cases hleaves.1
      | requestWithdrawal amount description => cases hleaves.1
    have hafter : m = a.freezeManager.triggerFreeze env.freezeNow := if_pos hleaves.2
    by_cases hactive : a.freezeManager.state = .active
    · have hopen := h.active.mp hactive
      rw [hafter, FreezeManager.triggerFreeze, if_pos hactive]
      refine ⟨rfl, iff_of_false FreezeState.noConfusion fun hand => hand.2 hleaves, fun t => ?_⟩
      have hnone : a.freezeManager.frozenAt ≠ some t := fun ht =>
        hopen (h.frozenAt.mp ⟨t, ht⟩)
      simp [hopen, hleaves, hnone]
    · have hfrozen : FrozenByLog a.transactions := not_not.mp fun hopen =>
        hactive (h.active.mpr hopen)
      rw [hafter, FreezeManager.triggerFreeze, if_neg hactive]
      exact ⟨rfl, iff_of_false hactive fun hand => hactive hand.1, fun t => by simp [hfrozen]⟩
  · have hsame : m = a.freezeManager := by
      cases op with
      | deposit amount description => rfl
      | requestWithdrawal amount description => rfl
      | charge amount description => exact if_neg fun hle => hleaves ⟨rfl, hle⟩
    rw [hsame]
    exact ⟨rfl, by simp [hleaves], fun t => by simp [hleaves]⟩

/-- **The instant of the freeze** is set by the call that puts the first charge that left
nothing into the log, and by nothing else. -/
theorem ToldByLog.frozenAt_step (h : ToldByLog a) (e : LifecycleEvent) (t : ℤ) :
    (lifecycleStep a e).freezeManager.frozenAt = some t ↔
      a.freezeManager.frozenAt = some t ∨ FreezesAt a e t := by
  cases e with
  | checkExportExpiry now =>
      have hcheck : ¬ FreezesAt a (.checkExportExpiry now) t := by
        rintro ⟨env, op, heq, -⟩
        cases heq
      rw [or_iff_left hcheck, lifecycleStep, BillingAccount.checkExportExpiry]
      rcases a.freezeManager.checkExportExpiry_cases now with hsame | ⟨-, -, hdeleted⟩
      · rw [hsame]
      · rw [hdeleted]
  | call env op =>
      have hcall : FreezesAt a (.call env op) t ↔ env.freezeNow = t ∧
          ¬ FrozenByLog a.transactions ∧
            FrozenByLog (callStep a (env, op)).transactions := by
        constructor
        · rintro ⟨env', op', heq, hnow, hopen, hafter⟩
          cases heq
          exact ⟨hnow, hopen, hafter⟩
        · rintro ⟨hnow, hopen, hafter⟩
          exact ⟨env, op, rfl, hnow, hopen, hafter⟩
      rw [hcall, lifecycleStep, callStep]
      rcases op.apply_cases a env with
        ⟨-, e, happly⟩ | ⟨-, -, happly⟩ | ⟨balance, -, -, happly⟩
      · simp [happly]
      · simp [happly]
      · rw [happly, AccountOp.settled_freezeManager, AccountOp.settled_transactions,
          frozenByLog_concat, (h.freezeAfter op env balance).2.2 t]
        refine or_congr_right (and_congr_right fun _ => and_congr_right fun hopen => ?_)
        rw [or_iff_right hopen]

/-- **One event** keeps an account told by its log. -/
theorem ToldByLog.step (h : ToldByLog a) (e : LifecycleEvent) :
    ToldByLog (lifecycleStep a e) := by
  cases e with
  | checkExportExpiry now =>
      rcases a.freezeManager.checkExportExpiry_cases now with hsame | ⟨hfrozen, -, hdeleted⟩
      · rwa [lifecycleStep, BillingAccount.checkExportExpiry, hsame]
      · rw [lifecycleStep, BillingAccount.checkExportExpiry, hdeleted]
        refine ⟨h.balance, h.window, h.frozenAt, iff_of_false FreezeState.noConfusion ?_,
          h.withdrawal⟩
        rw [← h.active, hfrozen]
        exact FreezeState.noConfusion
  | call env op =>
      have hbalance := accountStep_endsAtBalance h.balance (.call env op)
      rw [lifecycleStep]
      rw [accountStep, callStep] at hbalance
      rw [callStep]
      rcases op.apply_cases a env with
        ⟨-, e, happly⟩ | ⟨-, -, happly⟩ | ⟨balance, hacc, -, happly⟩
      · rwa [happly]
      · rwa [happly]
      · rw [happly] at hbalance ⊢
        obtain ⟨hwindow, hactive, hfrozen⟩ := h.freezeAfter op env balance
        refine ⟨hbalance, hwindow.trans h.window, ?_, ?_, fun earlier tx later heq htype => ?_⟩
        · rw [AccountOp.settled_freezeManager, AccountOp.settled_transactions,
            frozenByLog_concat]
          simp only [hfrozen, exists_or, h.frozenAt, exists_eq_left']
          tauto
        · rw [AccountOp.settled_freezeManager, AccountOp.settled_transactions,
            frozenByLog_concat, hactive, h.active, not_or]
        · rw [AccountOp.settled_transactions, Runs.concat_eq_append_cons_iff] at heq
          rcases heq with ⟨-, rfl, rfl⟩ | ⟨rest, -, hold⟩
          · -- a withdrawal that is accepted finds the account active
            cases op with
            | deposit amount description => cases htype
            | charge amount description => cases htype
            | requestWithdrawal amount description => exact h.active.mp hacc.2.2
          · exact h.withdrawal earlier tx rest hold htype

/-- A new account is told by its log and not frozen: it is an account without any transactions,
or what the initial deposit makes of it. -/
theorem toldByLog_new {id : AccountId} {env : Env} {initialDeposit : Decimal}
    (hnew : BillingAccount.new id env initialDeposit = some a) : ToldByLog a := by
  have hblank : ToldByLog { id := id, balance := .zero, transactions := [],
                            freezeManager := .new } :=
    { balance := Decimal.zero_val.symm
      window := rfl
      frozenAt := by simp [FreezeManager.new, FreezeManager.withWindow, FrozenByLog]
      active := by simp [FreezeManager.new, FreezeManager.withWindow, FrozenByLog]
      withdrawal := fun _ _ _ heq => absurd heq (by simp) }
  rw [BillingAccount.new] at hnew
  split at hnew
  · have hstep := hblank.step (.call env (.deposit initialDeposit "Initial deposit"))
    rw [lifecycleStep, callStep, AccountOp.apply] at hstep
    split at hnew
    · next heq =>
      obtain rfl := Option.some.inj hnew
      rwa [heq] at hstep
    · cases hnew
  · obtain rfl := Option.some.inj hnew
    exact hblank

/-! ### The instant of the freeze -/

/-- The instant is no earlier than the timestamp of the first charge in the log that left
nothing, and no later than those of the transactions after it. -/
def FreezeInLog (txs : List Transaction) (t : ℤ) : Prop :=
  ∀ earlier tx later, txs = earlier ++ tx :: later → ¬ FrozenByLog earlier →
    tx.LeavesNothing → tx.timestamp ≤ t ∧ ∀ tx' ∈ later, t ≤ tx'.timestamp

/-- A transaction after the freeze is recorded later. -/
theorem FreezeInLog.concat {txs : List Transaction} {t : ℤ} (h : FreezeInLog txs t)
    (hfrozen : FrozenByLog txs) {tx : Transaction} (hlater : t ≤ tx.timestamp) :
    FreezeInLog (txs ++ [tx]) t := by
  intro earlier first later heq hopen hleaves
  rcases Runs.concat_eq_append_cons_iff.mp heq with ⟨-, rfl, -⟩ | ⟨rest, rfl, hlog⟩
  · exact absurd hfrozen hopen
  · obtain ⟨hle, hrest⟩ := h earlier first rest hlog hopen hleaves
    refine ⟨hle, fun tx' htx' => ?_⟩
    rcases List.mem_append.mp htx' with htx' | htx'
    · exact hrest tx' htx'
    · obtain rfl := List.mem_singleton.mp htx'
      exact hlater

/-- The transaction of the freeze is the last one of the log. -/
theorem freezeInLog_concat {txs : List Transaction} (hopen : ¬ FrozenByLog txs)
    {tx : Transaction} {t : ℤ} (hle : tx.timestamp ≤ t) : FreezeInLog (txs ++ [tx]) t := by
  intro earlier first later heq _ hleaves
  rcases Runs.concat_eq_append_cons_iff.mp heq with ⟨rfl, -, rfl⟩ | ⟨rest, -, hlog⟩
  · exact ⟨hle, by simp⟩
  · exact absurd ⟨first, by simp [hlog], hleaves⟩ hopen

/-- The instant of the freeze was read in the course of the events, and it lies between the
timestamps of the log. -/
def TimedByLog (events : List LifecycleEvent) (a : BillingAccount) : Prop :=
  ∀ t, a.freezeManager.frozenAt = some t →
    t ∈ events.flatMap LifecycleEvent.readings ∧ FreezeInLog a.transactions t

/-- An event that leaves log and instant as they are keeps the instant between the timestamps. -/
theorem TimedByLog.of_same {events : List LifecycleEvent} (h : TimedByLog events a)
    (e : LifecycleEvent) {b : BillingAccount} (hlog : b.transactions = a.transactions)
    (hfrozen : b.freezeManager.frozenAt = a.freezeManager.frozenAt) :
    TimedByLog (events ++ [e]) b := by
  intro t ht
  rw [hlog, List.flatMap_append]
  exact (h t (hfrozen ▸ ht)).imp (List.mem_append_left _) id

/-- An operation that settles reads the clock for its transaction, and then for the freeze when
it is the one that leaves nothing. -/
theorem TimedByLog.settled {events : List LifecycleEvent} (h : TimedByLog events a)
    (htold : ToldByLog a) {env : Env} {op : AccountOp} {balance : Decimal}
    (happly : op.apply a env = (op.settled a env balance, .ok))
    (hclock : ((events ++ [LifecycleEvent.call env op]).flatMap
      LifecycleEvent.readings).Pairwise (· ≤ ·)) :
    TimedByLog (events ++ [.call env op]) (lifecycleStep a (.call env op)) := by
  have hlog : (lifecycleStep a (.call env op)).transactions =
      a.transactions ++ [op.transaction a env balance] := by
    rw [lifecycleStep, callStep, happly, AccountOp.settled_transactions]
  rw [List.flatMap_append, List.flatMap_singleton, List.pairwise_append] at hclock
  obtain ⟨-, hown, hlater⟩ := hclock
  intro t ht
  rw [hlog, List.flatMap_append, List.flatMap_singleton]
  rcases (htold.frozenAt_step _ t).mp ht with hold | ⟨env', op', heq, rfl, hopen, hfrozen⟩
  · -- the account was frozen before
    obtain ⟨hread, hbetween⟩ := h t hold
    have hnow : env.now ∈ (LifecycleEvent.call env op).readings := by
      cases op <;> simp [LifecycleEvent.readings]
    exact ⟨List.mem_append_left _ hread,
      hbetween.concat (htold.frozenAt.mp ⟨t, hold⟩) (hlater t hread env.now hnow)⟩
  · -- the operation is the first charge that left nothing
    cases heq
    rw [hlog, frozenByLog_concat, or_iff_right hopen] at hfrozen
    have hreadings : (LifecycleEvent.call env op).readings = [env.now, env.freezeNow] := by
      cases op with
      | charge amount description => rfl
      | deposit amount description => cases hfrozen.1
      | requestWithdrawal amount description => cases hfrozen.1
    rw [hreadings] at hown ⊢
    have hle : env.now ≤ env.freezeNow := by simpa using hown
    exact ⟨by simp, freezeInLog_concat hopen hle⟩

/-- **One event** keeps the instant between the timestamps when its clock does not go back. -/
theorem TimedByLog.step {events : List LifecycleEvent} (h : TimedByLog events a)
    (htold : ToldByLog a) (e : LifecycleEvent)
    (hclock : ((events ++ [e]).flatMap LifecycleEvent.readings).Pairwise (· ≤ ·)) :
    TimedByLog (events ++ [e]) (lifecycleStep a e) := by
  cases e with
  | checkExportExpiry now =>
      rcases a.freezeManager.checkExportExpiry_cases now with hsame | ⟨-, -, hdeleted⟩
      · exact h.of_same _ (by rw [lifecycleStep, BillingAccount.checkExportExpiry, hsame])
          (by rw [lifecycleStep, BillingAccount.checkExportExpiry, hsame])
      · exact h.of_same _ rfl (by rw [lifecycleStep, BillingAccount.checkExportExpiry, hdeleted])
  | call env op =>
      rcases op.apply_cases a env with
        ⟨-, e, happly⟩ | ⟨-, -, happly⟩ | ⟨balance, -, -, happly⟩
      · exact h.of_same _ (by rw [lifecycleStep, callStep, happly])
          (by rw [lifecycleStep, callStep, happly])
      · exact h.of_same _ (by rw [lifecycleStep, callStep, happly])
          (by rw [lifecycleStep, callStep, happly])
      · exact h.settled htold happly hclock

/-! ### Runs -/

/-- In the course of a run an expiry check came two days or more after the instant of the
freeze. -/
def ExpiredInRun (a : BillingAccount) (events : List LifecycleEvent) : Prop :=
  ∃ v ∈ Runs.visits lifecycleStep a events, ∃ now t, v.2 = .checkExportExpiry now ∧
    v.1.freezeManager.frozenAt = some t ∧ t + durationHours 48 ≤ now

/-- An event deletes exactly when it is an expiry check that is late enough. -/
theorem ToldByLog.hardDeleted_step_iff (h : ToldByLog a) (e : LifecycleEvent) :
    (lifecycleStep a e).freezeManager.state = .hardDeleted ↔
      a.freezeManager.state = .hardDeleted ∨ ∃ now t, e = .checkExportExpiry now ∧
        a.freezeManager.frozenAt = some t ∧ t + durationHours 48 ≤ now := by
  cases e with
  | call env op =>
      have hcall : ¬ ∃ now t, LifecycleEvent.call env op = .checkExportExpiry now ∧
          a.freezeManager.frozenAt = some t ∧ t + durationHours 48 ≤ now := by
        rintro ⟨now, t, heq, -⟩
        cases heq
      rw [or_iff_left hcall, lifecycleStep, callStep]
      rcases op.apply_freezeManager a env with hsame | htrigger
      · rw [hsame]
      · rw [htrigger, FreezeManager.triggerFreeze_state]
        split
        · next hactive =>
          rw [hactive]
          exact iff_of_false FreezeState.noConfusion FreezeState.noConfusion
        · exact Iff.rfl
  | checkExportExpiry now =>
      rw [lifecycleStep, BillingAccount.checkExportExpiry]
      rcases a.freezeManager.checkExportExpiry_cases now with hsame | ⟨-, ⟨t, ht, hlate⟩, hdeleted⟩
      · rw [hsame]
        refine ⟨Or.inl, fun hor => hor.elim id ?_⟩
        rintro ⟨now', t, heq, ht, hlate⟩
        obtain rfl := LifecycleEvent.checkExportExpiry.inj heq
        -- the account is frozen, and the check that changed nothing is late enough
        by_contra hnot
        have hfrozen : a.freezeManager.state = .frozenExport := by
          cases hstate : a.freezeManager.state with
          | active => exact absurd (h.frozenAt.mp ⟨t, ht⟩) (h.active.mp hstate)
          | frozenExport => rfl
          | hardDeleted => exact absurd hstate hnot
        rw [FreezeManager.checkExportExpiry, if_neg (not_not.mpr hfrozen), ht] at hsame
        rw [← h.window] at hlate
        simp [hlate] at hsame
      · rw [hdeleted]
        rw [h.window] at hlate
        exact iff_of_true rfl (Or.inr ⟨now, t, rfl, ht, hlate⟩)

/-- What no log has but the events of a run tell: when the account froze, and whether it was
deleted. -/
theorem told_run (h : ToldByLog a) (hactive : a.freezeManager.state = .active)
    (events : List LifecycleEvent) :
    let b := events.foldl lifecycleStep a
    ToldByLog b ∧
      (∀ t, b.freezeManager.frozenAt = some t ↔
        ∃ v ∈ Runs.visits lifecycleStep a events, FreezesAt v.1 v.2 t) ∧
      (b.freezeManager.state = .hardDeleted ↔ ExpiredInRun a events) := by
  induction events using List.reverseRecOn with
  | nil =>
      refine ⟨h, fun t => iff_of_false ?_ (by simp), iff_of_false ?_ (by simp [ExpiredInRun])⟩
      · exact fun ht => h.active.mp hactive (h.frozenAt.mp ⟨t, ht⟩)
      · rw [List.foldl_nil, hactive]
        exact FreezeState.noConfusion
  | append_singleton events e ih =>
      obtain ⟨htold, hfrozen, hdeleted⟩ := ih
      rw [List.foldl_append, List.foldl_cons, List.foldl_nil]
      refine ⟨htold.step e, fun t => ?_, ?_⟩
      · rw [htold.frozenAt_step e t, hfrozen t, Runs.visits_concat]
        simp only [List.mem_append, List.mem_singleton, or_and_right, exists_or, exists_eq_left]
      · rw [htold.hardDeleted_step_iff e, hdeleted, ExpiredInRun, ExpiredInRun,
          Runs.visits_concat]
        simp only [List.mem_append, List.mem_singleton, or_and_right, exists_or, exists_eq_left]

/-- Under a clock that does not go back, the instant of the freeze lies between timestamps of
the log. -/
theorem timed_run (h : ToldByLog a) (hactive : a.freezeManager.state = .active)
    (events : List LifecycleEvent)
    (hclock : (events.flatMap LifecycleEvent.readings).Pairwise (· ≤ ·)) :
    TimedByLog events (events.foldl lifecycleStep a) := by
  induction events using List.reverseRecOn with
  | nil =>
      intro t ht
      exact absurd (h.frozenAt.mp ⟨t, ht⟩) (h.active.mp hactive)
  | append_singleton events e ih =>
      have hearlier := hclock
      rw [List.flatMap_append, List.pairwise_append] at hearlier
      rw [List.foldl_append, List.foldl_cons, List.foldl_nil]
      exact (ih hearlier.1).step (told_run h hactive events).1 e hclock

/-- **The log tells the account**: after every run of calls and expiry checks, the balance is
the last one of the log, and the account is frozen exactly when a charge in it left nothing.
The instant of the freeze is the one that the call of the first such charge read for it; under a
clock that does not go back it is no earlier than the timestamp of this charge and no later
than those after it. The account may store while there is no such charge and something is left,
and may no longer download once an expiry check came two days after the freeze. No withdrawal in
the log is after this charge. -/
theorem log_tells (id : AccountId) (env : Env) (initialDeposit : Decimal)
    (events : List LifecycleEvent) :
    ∃ a, BillingAccount.new id env initialDeposit = some a ∧
      let b := events.foldl lifecycleStep a
      b.balance.val = lastBalance 0 b.transactions ∧
        ((∃ t, b.freezeManager.frozenAt = some t) ↔ FrozenByLog b.transactions) ∧
        (∀ t, b.freezeManager.frozenAt = some t ↔
          ∃ v ∈ Runs.visits lifecycleStep a events, FreezesAt v.1 v.2 t) ∧
        ((events.flatMap LifecycleEvent.readings).Pairwise (· ≤ ·) →
          ∀ t, b.freezeManager.frozenAt = some t → FreezeInLog b.transactions t) ∧
        (b.canStore = true ↔
          ¬ FrozenByLog b.transactions ∧ 0 < lastBalance 0 b.transactions) ∧
        (b.canDownload = false ↔ ExpiredInRun a events) ∧
        ∀ earlier tx later, b.transactions = earlier ++ tx :: later →
          tx.txType = .withdrawal → ¬ FrozenByLog earlier := by
  obtain ⟨a, hnew, hmanager, -⟩ := BillingAccount.new_spec id env initialDeposit
  have hactive : a.freezeManager.state = .active := hmanager ▸ rfl
  obtain ⟨htold, hfrozen, hdeleted⟩ := told_run (toldByLog_new hnew) hactive events
  refine ⟨a, hnew, htold.balance.symm, htold.frozenAt, hfrozen,
    fun hclock t ht => (timed_run (toldByLog_new hnew) hactive events hclock t ht).2, ?_, ?_,
    htold.withdrawal⟩
  · rw [BillingAccount.canStore, decide_eq_true_eq, htold.active, htold.balance]
  · rw [← hdeleted, BillingAccount.canDownload, decide_eq_false_iff_not]
    cases (events.foldl lifecycleStep a).freezeManager.state <;> simp

end VaultKeeper
