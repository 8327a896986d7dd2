import VaultKeeper.Decimal
import VaultKeeper.Freeze

/-!
# The Billing Account

`billing/src/account.rs`. Every operation takes the account to the account it leaves
behind together with how the call ended (`CallResult`): the `Err` texts of the source
are `AccountError`, and a panic is a `Decimal` operation out of range, which happens
before anything is written. What the operations read from outside, the clock and the
random transaction id, is the `Env` of the call. A charge that freezes the account reads
the clock twice: for its transaction, and again for the freeze.

## Main results

One lemma an operation says what the call can do: `BillingAccount.deposit_cases`,
`BillingAccount.charge_cases`, `BillingAccount.requestWithdrawal_cases`.
-/

namespace VaultKeeper

/-- Minimum withdrawal amount in RUB. -/
def minWithdrawal : Decimal :=
  .lit 10000 2 (by decide)

/-- Unique billing account identifier. -/
structure AccountId where
  id : String
deriving DecidableEq

/-- Transaction types. -/
inductive TransactionType
  | deposit
  | withdrawal
  | billingCharge
  | refund
  | platformFee
  | hostPayout
deriving DecidableEq

/-- A financial transaction. -/
structure Transaction where
  id : String
  accountId : AccountId
  txType : TransactionType
  amount : Decimal
  balanceAfter : Decimal
  timestamp : ℤ
  description : String
deriving DecidableEq

/-- Billing account with balance tracking. -/
structure BillingAccount where
  id : AccountId
  balance : Decimal
  transactions : List Transaction
  freezeManager : FreezeManager
deriving DecidableEq

/-- What a call reads from outside: the clock and a fresh id for what it records, and the
clock once more when it triggers a freeze; a call that triggers none does not read it again. -/
structure Env where
  now : ℤ
  txId : String
  freezeNow : ℤ

/-- The errors of the account operations. -/
inductive AccountError
  | depositNotPositive
  | hardDeleted
  | chargeNotPositive
  | belowMinimum
  | insufficientBalance (balance amount : Decimal)
  | notActive
deriving DecidableEq

/-- The text of an error, given how decimals are displayed. -/
def AccountError.text (display : Decimal → String) : AccountError → String
  | .depositNotPositive => "Deposit amount must be positive"
  | .hardDeleted => "Account has been hard deleted"
  | .chargeNotPositive => "Charge amount must be positive"
  | .belowMinimum => "Minimum withdrawal is " ++ display minWithdrawal ++ " RUB"
  | .insufficientBalance balance amount =>
      "Insufficient balance: " ++ display balance ++ " < " ++ display amount
  | .notActive => "Account is frozen or deleted, cannot withdraw"

/-- How a call ended. -/
inductive CallResult
  | ok
  | err (e : AccountError)
  | panic
deriving DecidableEq

namespace BillingAccount

/-- Record a transaction with the balance as it stands. -/
def recordTransaction (a : BillingAccount) (env : Env) (txType : TransactionType)
    (amount : Decimal) (description : String) : BillingAccount :=
  { a with
    transactions := a.transactions ++
      [{ id := env.txId, accountId := a.id, txType := txType, amount := amount
         balanceAfter := a.balance, timestamp := env.now, description := description }] }

/-- Deposit funds into the account. -/
def deposit (a : BillingAccount) (env : Env) (amount : Decimal) (description : String) :
    BillingAccount × CallResult :=
  if amount.val ≤ 0 then (a, .err .depositNotPositive)
  else if a.freezeManager.state = .hardDeleted then (a, .err .hardDeleted)
  else
    match a.balance.add amount with
    | none => (a, .panic)
    | some balance =>
        (recordTransaction { a with balance := balance } env .deposit amount description, .ok)

/-- Charge the account for billing, and freeze it when nothing is left. -/
def charge (a : BillingAccount) (env : Env) (amount : Decimal) (description : String) :
    BillingAccount × CallResult :=
  if amount.val ≤ 0 then (a, .err .chargeNotPositive)
  else
    match a.balance.sub amount with
    | none => (a, .panic)
    | some balance =>
        let charged :=
          recordTransaction { a with balance := balance } env .billingCharge amount description
        if charged.balance.val ≤ 0 then
          ({ charged with freezeManager := charged.freezeManager.triggerFreeze env.freezeNow }, .ok)
        else (charged, .ok)

/-- Withdraw funds: at least the minimum, at most the balance, and only while active. -/
def requestWithdrawal (a : BillingAccount) (env : Env) (amount : Decimal)
    (description : String) : BillingAccount × CallResult :=
  if amount.val < minWithdrawal.val then (a, .err .belowMinimum)
  else if a.balance.val < amount.val then (a, .err (.insufficientBalance a.balance amount))
  else if a.freezeManager.state ≠ .active then (a, .err .notActive)
  else
    match a.balance.sub amount with
    | none => (a, .panic)
    | some balance =>
        (recordTransaction { a with balance := balance } env .withdrawal amount description,
          .ok)

/-- A new account with an initial deposit. `none` is the panic of the `unwrap` on the
deposit. -/
def new (id : AccountId) (env : Env) (initialDeposit : Decimal) : Option BillingAccount :=
  let account : BillingAccount :=
    { id := id, balance := .zero, transactions := [], freezeManager := .new }
  if 0 < initialDeposit.val then
    match account.deposit env initialDeposit "Initial deposit" with
    | (account, .ok) => some account
    | _ => none
  else some account

/-- `freeze_manager.check_export_expiry` on the account's manager. -/
def checkExportExpiry (a : BillingAccount) (now : ℤ) : Bool × BillingAccount :=
  let (expired, m) := a.freezeManager.checkExportExpiry now
  (expired, { a with freezeManager := m })

/-- Whether the account can store data. -/
def canStore (a : BillingAccount) : Bool :=
  a.freezeManager.state = .active ∧ 0 < a.balance.val

/-- Whether the account can download data. -/
def canDownload (a : BillingAccount) : Bool :=
  a.freezeManager.state = .active ∨ a.freezeManager.state = .frozenExport

@[simp] theorem recordTransaction_balance (a : BillingAccount) (env : Env)
    (txType : TransactionType) (amount : Decimal) (description : String) :
    (a.recordTransaction env txType amount description).balance = a.balance := rfl

@[simp] theorem recordTransaction_freezeManager (a : BillingAccount) (env : Env)
    (txType : TransactionType) (amount : Decimal) (description : String) :
    (a.recordTransaction env txType amount description).freezeManager =
      a.freezeManager := rfl

/-! ### What a call can do -/

variable (a : BillingAccount) (env : Env) (amount : Decimal) (description : String)

/-- A deposit leaves the account alone and does not succeed, or it adds a positive amount
to the balance of an account that is not deleted, and nothing freezes or thaws. -/
theorem deposit_cases :
    ((a.deposit env amount description).1 = a ∧
        (a.deposit env amount description).2 ≠ .ok) ∨
      ∃ balance, 0 < amount.val ∧ a.freezeManager.state ≠ .hardDeleted ∧
        a.balance.add amount = some balance ∧
        a.deposit env amount description =
          (recordTransaction { a with balance := balance } env .deposit amount description,
            .ok) := by
  rw [deposit]
  by_cases hpos : amount.val ≤ 0
  · simp [hpos]
  · by_cases hstate : a.freezeManager.state = .hardDeleted
    · simp [hpos, hstate]
    · cases hadd : a.balance.add amount with
      | none => simp [hpos, hstate]
      | some balance => exact Or.inr ⟨balance, by simpa using hpos, hstate, rfl, by
          simp [hpos, hstate]⟩

/-- A charge leaves the account alone and does not succeed, or it subtracts a positive
amount from the balance and triggers a freeze exactly when nothing is left. -/
theorem charge_cases :
    ((a.charge env amount description).1 = a ∧
        (a.charge env amount description).2 ≠ .ok) ∨
      ∃ balance, 0 < amount.val ∧ a.balance.sub amount = some balance ∧
        a.charge env amount description =
          ({ recordTransaction { a with balance := balance } env .billingCharge amount
              description with
            freezeManager :=
              if balance.val ≤ 0 then a.freezeManager.triggerFreeze env.freezeNow
              else a.freezeManager }, .ok) := by
  rw [charge]
  by_cases hpos : amount.val ≤ 0
  · simp [hpos]
  · cases hsub : a.balance.sub amount with
    | none => simp [hpos]
    | some balance =>
        refine Or.inr ⟨balance, by simpa using hpos, rfl, ?_⟩
        by_cases hbal : balance.val ≤ 0
        · simp [hpos, hbal]
        · simp only [hpos, if_false, recordTransaction_balance, hbal]
          rfl

/-- A withdrawal leaves the account alone and does not succeed, or it subtracts at least
the minimum and at most the balance from an active account. -/
theorem requestWithdrawal_cases :
    ((a.requestWithdrawal env amount description).1 = a ∧
        (a.requestWithdrawal env amount description).2 ≠ .ok) ∨
      ∃ balance, minWithdrawal.val ≤ amount.val ∧ amount.val ≤ a.balance.val ∧
        a.freezeManager.state = .active ∧ a.balance.sub amount = some balance ∧
        a.requestWithdrawal env amount description =
          (recordTransaction { a with balance := balance } env .withdrawal amount
            description, .ok) := by
  rw [requestWithdrawal]
  by_cases hmin : amount.val < minWithdrawal.val
  · simp [hmin]
  · by_cases hbal : a.balance.val < amount.val
    · simp [hmin, hbal]
    · by_cases hstate : a.freezeManager.state = .active
      · cases hsub : a.balance.sub amount with
        | none => simp [hmin, hbal, hstate]
        | some balance => exact Or.inr ⟨balance, not_lt.mp hmin, not_lt.mp hbal, hstate, rfl, by
            simp [hmin, hbal, hstate]⟩
      · simp [hmin, hbal, hstate]

end BillingAccount

end VaultKeeper
