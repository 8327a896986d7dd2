import VaultKeeper.AccountRuns
import VaultKeeper.FreezeRuns

/-!
# The Log of a Billing Account

Runs of an account in which its operations are interleaved with the calls of its freeze
manager. An operation is described once for all three: the guards it checks
(`AccountOp.Accepted`), the exact balance it aims at, and the account it settles on when
the balance is in range. `AccountOp.apply_cases` is the one place where the bodies of the
operations are opened.

## Main results

* `log_faithful`: successful calls append their transaction, failed ones change nothing,
  and a frozen account pays out nothing before it is unfrozen.
* `closed_iff`: which calls still change a hard-deleted account.
-/

namespace VaultKeeper

namespace AccountOp

/-- The type of the transaction an operation records. -/
def txType : AccountOp → TransactionType
  | .deposit _ _ => .deposit
  | .charge _ _ => .billingCharge
  | .requestWithdrawal _ _ => .withdrawal

/-- The amount of an operation. -/
def amount : AccountOp → Decimal
  | .deposit amount _ => amount
  | .charge amount _ => amount
  | .requestWithdrawal amount _ => amount

/-- The description of an operation. -/
def description : AccountOp → String
  | .deposit _ description => description
  | .charge _ description => description
  | .requestWithdrawal _ description => description

/-- What an operation adds to the balance. -/
def signedAmount : AccountOp → ℚ
  | .deposit amount _ => amount.val
  | .charge amount _ => -amount.val
  | .requestWithdrawal amount _ => -amount.val

/-- The guards of an operation. -/
def Accepted (op : AccountOp) (a : BillingAccount) : Prop :=
  match op with
  | .deposit amount _ => 0 < amount.val ∧ a.freezeManager.state ≠ .hardDeleted
  | .charge amount _ => 0 < amount.val
  | .requestWithdrawal amount _ =>
      minWithdrawal.val ≤ amount.val ∧ amount.val ≤ a.balance.val ∧
        a.freezeManager.state = .active

/-- The balance before rounding. -/
def exactBalance (op : AccountOp) (a : BillingAccount) : ℚ :=
  a.balance.val + op.signedAmount

/-- The freeze manager after an operation that leaves the given balance. -/
def freezeAfter (op : AccountOp) (m : FreezeManager) (env : Env) (balance : Decimal) :
    FreezeManager :=
  match op with
  | .charge _ _ => if balance.val ≤ 0 then m.triggerFreeze env.freezeNow else m
  | _ => m

/-- The account an operation settles on with the given balance. -/
def settled (op : AccountOp) (a : BillingAccount) (env : Env) (balance : Decimal) :
    BillingAccount :=
  { ({ a with balance := balance } : BillingAccount).recordTransaction env op.txType op.amount
      op.description with
    freezeManager := op.freezeAfter a.freezeManager env balance }

@[simp] theorem settled_balance (op : AccountOp) (a : BillingAccount) (env : Env)
    (balance : Decimal) : (op.settled a env balance).balance = balance := rfl

@[simp] theorem settled_freezeManager (op : AccountOp) (a : BillingAccount) (env : Env)
    (balance : Decimal) : (op.settled a env balance).freezeManager =
      op.freezeAfter a.freezeManager env balance := rfl

/-- The transaction an operation records. -/
def transaction (op : AccountOp) (a : BillingAccount) (env : Env) (balance : Decimal) :
    Transaction where
  id := env.txId
  accountId := a.id
  txType := op.txType
  amount := op.amount
  balanceAfter := balance
  timestamp := env.now
  description := op.description

@[simp] theorem settled_transactions (op : AccountOp) (a : BillingAccount) (env : Env)
    (balance : Decimal) : (op.settled a env balance).transactions =
      a.transactions ++ [op.transaction a env balance] := rfl

/-- **What an operation does**: it is refused by a guard, it overflows, or it settles on
the rounded balance. -/
theorem apply_cases (op : AccountOp) (a : BillingAccount) (env : Env) :
    (¬ op.Accepted a ∧ ∃ e, op.apply a env = (a, .err e)) ∨
      (op.Accepted a ∧ Decimal.round (op.exactBalance a) = none ∧
        op.apply a env = (a, .panic)) ∨
      ∃ balance, op.Accepted a ∧ Decimal.round (op.exactBalance a) = some balance ∧
        op.apply a env = (op.settled a env balance, .ok) := by
  cases op with
  | deposit amount description =>
      have hsum : Decimal.round (exactBalance (.deposit amount description) a) =
          a.balance.add amount := rfl
      rw [hsum, apply, BillingAccount.deposit]
      by_cases hpos : amount.val ≤ 0
      · exact Or.inl ⟨fun h => absurd h.1 (not_lt.mpr hpos), _, if_pos hpos⟩
      · by_cases hstate : a.freezeManager.state = .hardDeleted
        · exact Or.inl ⟨fun h => h.2 hstate, _, by rw [if_neg hpos, if_pos hstate]⟩
        · have hacc : Accepted (.deposit amount description) a := ⟨not_le.mp hpos, hstate⟩
          rw [if_neg hpos, if_neg hstate]
          cases hadd : a.balance.add amount with
          | none => exact Or.inr (Or.inl ⟨hacc, rfl, rfl⟩)
          | some balance => exact Or.inr (Or.inr ⟨balance, hacc, rfl, rfl⟩)
  | charge amount description =>
      have hdiff : Decimal.round (exactBalance (.charge amount description) a) =
          a.balance.sub amount := by
        rw [exactBalance, signedAmount, ← sub_eq_add_neg, Decimal.sub]
      rw [hdiff, apply, BillingAccount.charge]
      by_cases hpos : amount.val ≤ 0
      · exact Or.inl ⟨fun h => absurd h (not_lt.mpr hpos), _, if_pos hpos⟩
      · have hacc : Accepted (.charge amount description) a := not_le.mp hpos
        rw [if_neg hpos]
        cases hsub : a.balance.sub amount with
        | none => exact Or.inr (Or.inl ⟨hacc, rfl, rfl⟩)
        | some balance =>
            refine Or.inr (Or.inr ⟨balance, hacc, rfl, ?_⟩)
            by_cases hbal : balance.val ≤ 0
            · simp [settled, freezeAfter, txType, AccountOp.amount, AccountOp.description, hbal]
            · simp only [BillingAccount.recordTransaction_balance, hbal, if_false, settled,
                freezeAfter]
              rfl
  | requestWithdrawal amount description =>
      have hdiff : Decimal.round (exactBalance (.requestWithdrawal amount description) a) =
          a.balance.sub amount := by
        rw [exactBalance, signedAmount, ← sub_eq_add_neg, Decimal.sub]
      rw [hdiff, apply, BillingAccount.requestWithdrawal]
      by_cases hmin : amount.val < minWithdrawal.val
      · exact Or.inl ⟨fun h => absurd h.1 (not_le.mpr hmin), _, if_pos hmin⟩
      · by_cases hbal : a.balance.val < amount.val
        · exact Or.inl ⟨fun h => absurd h.2.1 (not_le.mpr hbal), _,
            by rw [if_neg hmin, if_pos hbal]⟩
        · by_cases hstate : a.freezeManager.state ≠ .active
          · exact Or.inl ⟨fun h => hstate h.2.2, _,
              by rw [if_neg hmin, if_neg hbal, if_pos hstate]⟩
          · have hacc : Accepted (.requestWithdrawal amount description) a :=
              ⟨not_lt.mp hmin, not_lt.mp hbal, not_not.mp hstate⟩
            rw [if_neg hmin, if_neg hbal, if_neg hstate]
            cases hsub : a.balance.sub amount with
            | none => exact Or.inr (Or.inl ⟨hacc, rfl, rfl⟩)
            | some balance => exact Or.inr (Or.inr ⟨balance, hacc, rfl, rfl⟩)

end AccountOp

/-! ### Runs with freeze-manager calls -/

/-- The events of an account's life: an operation, or a call of its freeze manager. -/
inductive AccountEvent
  | call (env : Env) (op : AccountOp)
  | freezeManager (c : FreezeCall)

/-- One event. -/
def accountStep (a : BillingAccount) : AccountEvent → BillingAccount
  | .call env op => callStep a (env, op)
  | .freezeManager c => { a with freezeManager := a.freezeManager.call c }

/-- The event is an explicit unfreeze. -/
def AccountEvent.IsUnfreeze (e : AccountEvent) : Prop :=
  ∃ now, e = .freezeManager ⟨now, .unfreeze⟩

/-- A successful call appends its transaction, a failed one changes nothing, and a
withdrawal is at least the minimum and leaves nothing negative. -/
structure FaithfulCall (a : BillingAccount) (env : Env) (op : AccountOp) : Prop where
  ok : (op.apply a env).2 = .ok → ∃ tx,
    (op.apply a env).1.transactions = a.transactions ++ [tx] ∧ tx.txType = op.txType ∧
      tx.amount = op.amount ∧ tx.balanceAfter = (op.apply a env).1.balance
  err : ∀ e, (op.apply a env).2 = .err e →
    (op.apply a env).1.balance = a.balance ∧
      (op.apply a env).1.transactions = a.transactions ∧
      (op.apply a env).1.freezeManager.state = a.freezeManager.state ∧
      (op.apply a env).1.freezeManager.frozenAt = a.freezeManager.frozenAt
  withdrawal : op.txType = .withdrawal → (op.apply a env).2 = .ok →
    minWithdrawal.val ≤ op.amount.val ∧ 0 ≤ (op.apply a env).1.balance.val

/-- Every call is faithful, on every account. -/
theorem faithfulCall (a : BillingAccount) (env : Env) (op : AccountOp) :
    FaithfulCall a env op := by
  rcases op.apply_cases a env with ⟨-, e, happly⟩ | ⟨-, -, happly⟩ | ⟨balance, hacc, hround, happly⟩
  · exact ⟨by simp [happly], by simp [happly], by simp [happly]⟩
  · exact ⟨by simp [happly], by simp [happly], by simp [happly]⟩
  · refine ⟨fun _ => ⟨op.transaction a env balance, ?_⟩, by simp [happly], fun htype _ => ?_⟩
    · rw [happly]
      exact ⟨rfl, rfl, rfl, rfl⟩
    · rw [happly]
      cases op with
      | deposit amount description => cases htype
      | charge amount description => cases htype
      | requestWithdrawal amount description =>
          obtain ⟨hmin, hle, -⟩ := hacc
          have hpos : 0 ≤ a.balance.val + -amount.val := by linarith
          exact ⟨hmin, (Decimal.round_isNearest hround).le_of_le Decimal.zero_mem hpos⟩

/-- An operation leaves the freeze manager alone or triggers a freeze. -/
theorem AccountOp.apply_freezeManager (op : AccountOp) (a : BillingAccount) (env : Env) :
    (op.apply a env).1.freezeManager = a.freezeManager ∨
      (op.apply a env).1.freezeManager = a.freezeManager.triggerFreeze env.freezeNow := by
  rcases op.apply_cases a env with ⟨-, e, happly⟩ | ⟨-, -, happly⟩ | ⟨balance, -, -, happly⟩
  · exact Or.inl (by rw [happly])
  · exact Or.inl (by rw [happly])
  · rw [happly]
    cases op with
    | deposit amount description => exact Or.inl rfl
    | requestWithdrawal amount description => exact Or.inl rfl
    | charge amount description =>
        simp only [AccountOp.settled_freezeManager, AccountOp.freezeAfter]
        split
        · exact Or.inr rfl
        · exact Or.inl rfl

/-- Only an explicit unfreeze makes an account active again. -/
theorem accountStep_ne_active {a : BillingAccount} (ha : a.freezeManager.state ≠ .active)
    {e : AccountEvent} (he : ¬ e.IsUnfreeze) :
    (accountStep a e).freezeManager.state ≠ .active := by
  cases e with
  | call env op =>
      rcases op.apply_freezeManager a env with hsame | htrigger
      · simpa [accountStep, callStep, hsame] using ha
      · simpa [accountStep, callStep, htrigger] using
          a.freezeManager.triggerFreeze_state_ne_active env.freezeNow
  | freezeManager c =>
      obtain ⟨now, op⟩ := c
      cases op with
      | triggerFreeze => exact a.freezeManager.triggerFreeze_state_ne_active now
      | remainingExportSeconds => exact ha
      | unfreeze => exact absurd ⟨now, rfl⟩ he
      | checkExportExpiry =>
          rcases a.freezeManager.checkExportExpiry_cases now with hsame | ⟨-, -, hgone⟩
          · simpa [accountStep, FreezeManager.call, hsame] using ha
          · simp [accountStep, FreezeManager.call, hgone]

/-- **The log**: in every run from a new account, every call is faithful, and from the
moment the account is frozen every withdrawal is refused until an explicit unfreeze. -/
theorem log_faithful (id : AccountId) (env : Env) (initialDeposit : Decimal)
    (events : List AccountEvent) :
    ∃ a, BillingAccount.new id env initialDeposit = some a ∧
      (∀ v ∈ Runs.visits accountStep a events, ∀ env op, v.2 = .call env op →
        FaithfulCall v.1 env op) ∧
      ∀ before after, events = before ++ after →
        (before.foldl accountStep a).freezeManager.state ≠ .active →
        (∀ e ∈ after, ¬ e.IsUnfreeze) →
        ∀ v ∈ Runs.visits accountStep (before.foldl accountStep a) after,
          ∀ env amount description, v.2 = .call env (.requestWithdrawal amount description) →
            ∃ e, (v.1.requestWithdrawal env amount description).2 = .err e := by
  obtain ⟨a, hnew, -⟩ := BillingAccount.new_spec id env initialDeposit
  refine ⟨a, hnew, fun v _ env op _ => faithfulCall v.1 env op, ?_⟩
  rintro before after - hfrozen hafter v hv env amount description -
  have hstay := Runs.invariant accountStep
    (I := fun b => b.freezeManager.state ≠ .active) (G := fun _ e => ¬ e.IsUnfreeze)
    (fun _ _ hb he => accountStep_ne_active hb he) hfrozen
    (fun w hw => hafter w.2 (Runs.mem_of_mem_visits accountStep hw)) v hv
  rcases (AccountOp.requestWithdrawal amount description).apply_cases v.1 env with
    ⟨-, e, happly⟩ | ⟨hacc, -⟩ | ⟨-, hacc, -⟩
  · exact ⟨e, congrArg Prod.snd happly⟩
  · exact absurd hacc.2.2 hstay.1
  · exact absurd hacc.2.2 hstay.1

/-! ### Hard deletion -/

/-- The event is a charge that passes the guard of `charge` and does not overflow. -/
def ChargesOn (a : BillingAccount) (e : AccountEvent) : Prop :=
  ∃ env amount description, e = .call env (.charge amount description) ∧
    0 < amount.val ∧ |a.balance.val - amount.val| < 2 ^ 96 - 1 / 2

/-- No event takes a transaction away. -/
theorem length_transactions_le (a : BillingAccount) (e : AccountEvent) :
    a.transactions.length ≤ (accountStep a e).transactions.length := by
  cases e with
  | freezeManager c => exact le_rfl
  | call env op =>
      rw [accountStep, callStep]
      rcases op.apply_cases a env with ⟨-, e, happly⟩ | ⟨-, -, happly⟩ | ⟨balance, -, -, happly⟩
      · rw [happly]
      · rw [happly]
      · simp [happly]

theorem length_transactions_foldl_le (a : BillingAccount) (events : List AccountEvent) :
    a.transactions.length ≤ (events.foldl accountStep a).transactions.length := by
  induction events generalizing a with
  | nil => exact le_rfl
  | cons e events ih => exact (length_transactions_le a e).trans (ih _)

/-- An event that is no such charge leaves a hard-deleted account as it is. -/
theorem accountStep_hardDeleted {a : BillingAccount} (ha : a.freezeManager.state = .hardDeleted)
    {e : AccountEvent} (he : ¬ ChargesOn a e) : accountStep a e = a := by
  cases e with
  | freezeManager c => rw [accountStep, FreezeManager.call_hardDeleted ha]
  | call env op =>
      rw [accountStep, callStep]
      rcases op.apply_cases a env with ⟨-, e, happly⟩ | ⟨-, -, happly⟩ | ⟨balance, hacc, hround, -⟩
      · rw [happly]
      · rw [happly]
      · exfalso
        cases op with
        | deposit amount description => exact hacc.2 ha
        | requestWithdrawal amount description =>
            have hactive := hacc.2.2
            rw [ha] at hactive
            cases hactive
        | charge amount description =>
            refine he ⟨env, amount, description, rfl, hacc, ?_⟩
            rw [sub_eq_add_neg]
            exact Decimal.exists_round_iff.mp ⟨balance, hround⟩

/-- Such a charge appends a transaction, whatever the freeze state. -/
theorem length_transactions_of_chargesOn {a : BillingAccount} {e : AccountEvent}
    (he : ChargesOn a e) :
    (accountStep a e).transactions.length = a.transactions.length + 1 := by
  obtain ⟨env, amount, description, rfl, hpos, hrange⟩ := he
  rw [sub_eq_add_neg] at hrange
  obtain ⟨b, hb⟩ := Decimal.exists_round_iff.mpr hrange
  rw [accountStep, callStep]
  rcases (AccountOp.charge amount description).apply_cases a env with
    ⟨hrefused, -⟩ | ⟨-, hnone, -⟩ | ⟨balance, -, -, happly⟩
  · exact absurd hpos hrefused
  · cases hnone.symm.trans hb
  · simp [happly]

/-- **Closing**: further events leave the balance, the transactions and the freeze state
of a hard-deleted account unchanged exactly when none of them is a charge of a positive
amount. -/
theorem closed_iff {a : BillingAccount} (ha : a.freezeManager.state = .hardDeleted)
    (events : List AccountEvent) :
    ((events.foldl accountStep a).balance = a.balance ∧
        (events.foldl accountStep a).transactions = a.transactions ∧
        (events.foldl accountStep a).freezeManager.state = a.freezeManager.state) ↔
      ∀ e ∈ events, ¬ ChargesOn a e := by
  induction events with
  | nil => simp
  | cons e events ih =>
      rw [List.foldl_cons, List.forall_mem_cons]
      by_cases he : ChargesOn a e
      · refine iff_of_false ?_ fun h => h.1 he
        rintro ⟨-, hsame, -⟩
        have hgrow := length_transactions_foldl_le (accountStep a e) events
        rw [length_transactions_of_chargesOn he, hsame] at hgrow
        omega
      · rw [accountStep_hardDeleted ha he, ih]
        exact (and_iff_right he).symm

/-- An account that was charged everything and deleted two days later. -/
def deletedAccount : BillingAccount :=
  lifecycleStep (lifecycleStep accountOf100 chargeAll) expiryCheck

/-- A charge of one more. -/
def chargeOne : AccountEvent :=
  .call ⟨0, "tx-3", 0⟩ (.charge (.ofNat 1 (by decide)) "Storage")

theorem closed_iff_deletedAccount :
    ([chargeOne].foldl accountStep deletedAccount).balance = deletedAccount.balance ∧
        ([chargeOne].foldl accountStep deletedAccount).transactions =
          deletedAccount.transactions ∧
        ([chargeOne].foldl accountStep deletedAccount).freezeManager.state =
          deletedAccount.freezeManager.state ↔
      ∀ e ∈ [chargeOne], ¬ ChargesOn deletedAccount e :=
  closed_iff (by decide +kernel) [chargeOne]

/-- A charge after the deletion takes one from the deleted account. -/
theorem deleted_account_charged :
    ¬ ∀ id env initialDeposit a, BillingAccount.new id env initialDeposit = some a →
      ∀ before : List AccountEvent,
        (before.foldl accountStep a).freezeManager.state = .hardDeleted →
        ∀ after : List AccountEvent,
          (after.foldl accountStep (before.foldl accountStep a)).balance =
              (before.foldl accountStep a).balance ∧
            (after.foldl accountStep (before.foldl accountStep a)).transactions =
              (before.foldl accountStep a).transactions ∧
            (after.foldl accountStep (before.foldl accountStep a)).freezeManager.state =
              (before.foldl accountStep a).freezeManager.state := by
  intro hall
  have hclosed := hall _ _ _ _ new_accountOf100
    [.call ⟨1, "tx-1", 1⟩ (.charge (.ofNat 100 (by decide)) "Storage"),
      .freezeManager ⟨1 + durationHours 48, .checkExportExpiry⟩]
    (by decide +kernel) [chargeOne]
  exact absurd hclosed.1 (by decide +kernel)

end VaultKeeper
