import VaultKeeper.AccountLog

/-!
# Conservation of Money

An account's balance is moved by `Decimal` additions and subtractions, which round when
the exact result is not in the format. An hourly charge may carry 28 decimals, and a
balance of a few roubles less such a charge needs more digits than the format has, so
that what is recorded as charged is not what left the balance.

## Main results

* `linked_append_singleton`: a log stays linked exactly when the new link is exact.
* `conserved_iff`: a run conserves money exactly when no call of it rounds.
-/

namespace VaultKeeper

/-- What a transaction adds to the balance. The other types are recorded by no
operation. -/
def Transaction.signedAmount (tx : Transaction) : ℚ :=
  match tx.txType with
  | .deposit => tx.amount.val
  | .billingCharge => -tx.amount.val
  | .withdrawal => -tx.amount.val
  | _ => 0

/-- The sum of the amounts of the transactions of one type. -/
def totalOf (txType : TransactionType) (txs : List Transaction) : ℚ :=
  ((txs.filter fun tx => tx.txType = txType).map fun tx => tx.amount.val).sum

/-- Each balance differs from the one before it, the first from `b`, by the signed amount
of the transaction. -/
def Linked (b : ℚ) : List Transaction → Prop
  | [] => True
  | tx :: txs => tx.balanceAfter.val = b + tx.signedAmount ∧ Linked tx.balanceAfter.val txs

/-- The balance after the last transaction, `b` when there is none. -/
def lastBalance (b : ℚ) (txs : List Transaction) : ℚ :=
  txs.foldl (fun _ tx => tx.balanceAfter.val) b

@[simp] theorem lastBalance_nil (b : ℚ) : lastBalance b [] = b := rfl

@[simp] theorem lastBalance_cons (b : ℚ) (tx : Transaction) (txs : List Transaction) :
    lastBalance b (tx :: txs) = lastBalance tx.balanceAfter.val txs := rfl

@[simp] theorem lastBalance_append_singleton (b : ℚ) (txs : List Transaction)
    (tx : Transaction) : lastBalance b (txs ++ [tx]) = tx.balanceAfter.val := by
  simp [lastBalance]

/-- A log stays linked exactly when the new transaction is linked to its end. -/
theorem linked_append_singleton (b : ℚ) (txs : List Transaction) (tx : Transaction) :
    Linked b (txs ++ [tx]) ↔
      Linked b txs ∧ tx.balanceAfter.val = lastBalance b txs + tx.signedAmount := by
  induction txs generalizing b with
  | nil => simp [Linked]
  | cons t txs ih => simp [Linked, ih, and_assoc]

theorem totalOf_cons (txType : TransactionType) (tx : Transaction) (txs : List Transaction) :
    totalOf txType (tx :: txs) =
      (if tx.txType = txType then tx.amount.val else 0) + totalOf txType txs := by
  by_cases h : tx.txType = txType <;> simp [totalOf, h]

/-- A linked log ends with what it started with, the deposits added and the charges and
withdrawals taken. -/
theorem Linked.lastBalance_eq {b : ℚ} {txs : List Transaction} (h : Linked b txs) :
    lastBalance b txs = b + (totalOf .deposit txs -
      (totalOf .billingCharge txs + totalOf .withdrawal txs)) := by
  induction txs generalizing b with
  | nil => simp [totalOf]
  | cons tx txs ih =>
      obtain ⟨hlink, hrest⟩ := h
      rw [lastBalance_cons, ih hrest, hlink, totalOf_cons, totalOf_cons, totalOf_cons,
        Transaction.signedAmount]
      cases tx.txType <;> simp <;> ring

/-- Money is conserved: the balance is the deposits less the charges and withdrawals, and
each transaction moved the balance by its amount. -/
structure Conserved (a : BillingAccount) : Prop where
  total : a.balance.val = totalOf .deposit a.transactions -
    (totalOf .billingCharge a.transactions + totalOf .withdrawal a.transactions)
  linked : Linked 0 a.transactions

/-- The log ends at the balance. -/
def EndsAtBalance (a : BillingAccount) : Prop :=
  lastBalance 0 a.transactions = a.balance.val

/-- The event is a call that passes its guards, does not overflow, and aims at a balance
that is not in the format. -/
def Rounds (a : BillingAccount) (e : AccountEvent) : Prop :=
  ∃ env op, e = .call env op ∧ op.Accepted a ∧ |op.exactBalance a| < 2 ^ 96 - 1 / 2 ∧
    op.exactBalance a ∉ Decimal.Representable

theorem conserved_iff_linked {a : BillingAccount} (ha : EndsAtBalance a) :
    Conserved a ↔ Linked 0 a.transactions := by
  refine ⟨Conserved.linked, fun h => ⟨?_, h⟩⟩
  rw [← ha, h.lastBalance_eq, zero_add]

theorem AccountOp.signedAmount_transaction (op : AccountOp) (a : BillingAccount) (env : Env)
    (balance : Decimal) : (op.transaction a env balance).signedAmount = op.signedAmount := by
  cases op <;> rfl

/-- One event keeps the log ending at the balance. -/
theorem accountStep_endsAtBalance {a : BillingAccount} (ha : EndsAtBalance a)
    (e : AccountEvent) : EndsAtBalance (accountStep a e) := by
  cases e with
  | freezeManager c => exact ha
  | call env op =>
      rw [accountStep, callStep]
      rcases op.apply_cases a env with ⟨-, e, happly⟩ | ⟨-, -, happly⟩ | ⟨balance, -, -, happly⟩
      · rwa [happly]
      · rwa [happly]
      · rw [happly, EndsAtBalance, AccountOp.settled_transactions,
          lastBalance_append_singleton]
        rfl

/-- One event keeps the log linked exactly when it does not round. -/
theorem accountStep_linked_iff {a : BillingAccount} (ha : EndsAtBalance a) (e : AccountEvent) :
    Linked 0 (accountStep a e).transactions ↔ Linked 0 a.transactions ∧ ¬ Rounds a e := by
  cases e with
  | freezeManager c =>
      refine (and_iff_left ?_).symm
      rintro ⟨env, op, hcall, -⟩
      cases hcall
  | call env op =>
      have hrounds : Rounds a (.call env op) ↔ op.Accepted a ∧
          |op.exactBalance a| < 2 ^ 96 - 1 / 2 ∧ op.exactBalance a ∉ Decimal.Representable := by
        constructor
        · rintro ⟨_, _, hcall, h⟩
          cases hcall
          exact h
        · exact fun h => ⟨env, op, rfl, h⟩
      rw [accountStep, callStep, hrounds]
      rcases op.apply_cases a env with
        ⟨hrefused, e, happly⟩ | ⟨-, hnone, happly⟩ | ⟨balance, hacc, hround, happly⟩
      · rw [happly]
        exact (and_iff_left fun h => hrefused h.1).symm
      · rw [happly]
        refine (and_iff_left fun h => ?_).symm
        obtain ⟨d, hd⟩ := Decimal.exists_round_iff.mpr h.2.1
        cases hnone.symm.trans hd
      · have hrange := Decimal.exists_round_iff.mp ⟨balance, hround⟩
        rw [happly, AccountOp.settled_transactions, linked_append_singleton, ha,
          AccountOp.signedAmount_transaction]
        refine and_congr_right fun _ => ?_
        have hexact : balance.val = op.exactBalance a ↔ _ := Decimal.round_exact_iff hround
        rw [AccountOp.exactBalance] at hexact
        simp only [AccountOp.transaction, hexact, hacc, hrange, true_and, not_not]
        rfl

/-- A new account holds nothing, or exactly its initial deposit. -/
theorem new_conserved {id : AccountId} {env : Env} {initialDeposit : Decimal}
    {a : BillingAccount} (hnew : BillingAccount.new id env initialDeposit = some a) :
    EndsAtBalance a ∧ Linked 0 a.transactions := by
  rw [BillingAccount.new] at hnew
  by_cases hpos : 0 < initialDeposit.val
  · have hnot : ¬ initialDeposit.val ≤ 0 := not_le.mpr hpos
    simp only [hpos, if_true, BillingAccount.deposit, hnot, if_false, Decimal.add_to_zero,
      FreezeManager.new] at hnew
    obtain rfl := Option.some.inj hnew
    simp [EndsAtBalance, BillingAccount.recordTransaction, Linked, Transaction.signedAmount]
  · rw [if_neg hpos] at hnew
    obtain rfl := Option.some.inj hnew
    simp [EndsAtBalance, Linked]

/-- **Conservation**: a run from a new account conserves money exactly when no call of it
rounds. -/
theorem conserved_iff (id : AccountId) (env : Env) (initialDeposit : Decimal)
    (events : List AccountEvent) :
    ∃ a, BillingAccount.new id env initialDeposit = some a ∧
      (Conserved (events.foldl accountStep a) ↔
        ∀ v ∈ Runs.visits accountStep a events, ¬ Rounds v.1 v.2) := by
  obtain ⟨a, hnew, -⟩ := BillingAccount.new_spec id env initialDeposit
  obtain ⟨hends, hlinked⟩ := new_conserved hnew
  refine ⟨a, hnew, ?_⟩
  have hfinal : EndsAtBalance (events.foldl accountStep a) :=
    List.foldlRecOn events accountStep hends fun _ hb e _ => accountStep_endsAtBalance hb e
  rw [conserved_iff_linked hfinal, Runs.foldl_iff accountStep (I := EndsAtBalance)
    (P := fun b => Linked 0 b.transactions) (G := fun b e => ¬ Rounds b e)
    (fun _ e hb => accountStep_endsAtBalance hb e) (fun _ e hb => accountStep_linked_iff hb e)
    hends]
  exact and_iff_right hlinked

/-- A charge of a third of a rouble, to 28 decimals, against 100 roubles takes a little more
or less than the recorded amount. -/
theorem third_not_conserved :
    ¬ ∀ id env initialDeposit a, BillingAccount.new id env initialDeposit = some a →
      ∀ events : List AccountEvent, Conserved (events.foldl accountStep a) := by
  intro hall
  have hconserved := hall _ _ _ _ new_accountOf100
    [.call ⟨1, "tx-1", 1⟩ (.charge (.lit 3333333333333333333333333333 28 (by decide)) "Storage")]
  exact absurd hconserved.total (by decide +kernel)

end VaultKeeper
