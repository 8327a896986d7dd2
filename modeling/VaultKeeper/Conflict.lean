import Mathlib.Data.List.MinMax
import Mathlib.Data.String.Basic
import VaultKeeper.Json

/-!
# Conflict Resolution

`ledger/src/conflict.rs`: two versions of a ledger entry conflict when they have one id
and different texts. The remote version wins when it has more votes, or as many votes and
a timestamp that is a later string; in every other case the local version stays.

A `Replica` keeps one version of an entry and resolves every arriving version against
it, without votes. It ends with the version that has the latest timestamp and, among
several of these, with the one it met first (`receiveAll_held`).

## Main results

* `mem_detectConflicts`: which conflicts are found.
* `receiveAll_held`: the version a replica ends with.
* `replicas_converge_iff`: replicas that receive the same versions in any orders end with
  the same version exactly when the latest timestamp belongs to one version only.
-/

namespace VaultKeeper

/-- A conflict between two ledger entries. -/
structure LedgerConflict where
  localEntry : Value
  remoteEntry : Value
  localSeq : ℤ
  remoteSeq : ℤ
  localTimestamp : String
  remoteTimestamp : String

/-- The sequence number of an entry, 0 when it has none. -/
def seqOf (e : Value) : ℤ :=
  (e.get "seq").asI64.getD 0

/-- The timestamp of an entry, empty when it has none. -/
def timestampOf (e : Value) : String :=
  (e.get "timestamp").asStr.getD ""

/-- The id of an entry, when it has one. -/
def idOf (e : Value) : Option String :=
  (e.get "id").asStr

namespace LedgerConflict

/-- Create a new conflict. -/
def new (localEntry remoteEntry : Value) : LedgerConflict where
  localEntry := localEntry
  remoteEntry := remoteEntry
  localSeq := seqOf localEntry
  remoteSeq := seqOf remoteEntry
  localTimestamp := timestampOf localEntry
  remoteTimestamp := timestampOf remoteEntry

/-- Resolve by timestamp: whether the remote entry is newer. -/
def resolveByTimestamp (c : LedgerConflict) : Bool :=
  c.localTimestamp < c.remoteTimestamp

/-- Resolve by majority vote: whether the remote entry should replace the local one. A tie
falls back to the timestamps. -/
def resolveByMajority (c : LedgerConflict) (votesForLocal votesForRemote : ℕ) : Bool :=
  if votesForLocal < votesForRemote then true
  else if votesForRemote < votesForLocal then false
  else c.resolveByTimestamp

end LedgerConflict

/-- Result of conflict resolution. -/
inductive ResolveResult
  | useLocal (entry : Value)
  | useRemote (entry : Value)

/-- The winning entry. -/
def ResolveResult.entry : ResolveResult → Value
  | .useLocal e => e
  | .useRemote e => e

/-- Conflict resolver: the counts of what it resolved. A count starts over after `2^64`. -/
structure ConflictResolver where
  resolvedCount : UInt64
  localWins : UInt64
  remoteWins : UInt64
deriving DecidableEq

namespace ConflictResolver

def new : ConflictResolver where
  resolvedCount := 0
  localWins := 0
  remoteWins := 0

/-- The local entry with an id: the last one, since the map is filled in order. -/
def localMap (localEntries : List Value) (id : String) : Option Value :=
  localEntries.reverse.find? fun e => idOf e == some id

/-- Detect conflicts: remote entries whose id is known with a different text. -/
def detectConflicts (localEntries remoteEntries : List Value) : List LedgerConflict :=
  remoteEntries.filterMap fun remote => do
    let remoteId ← idOf remote
    let localEntry ← localMap localEntries remoteId
    if localEntry.toText ≠ remote.toText then some (.new localEntry remote) else none

/-- Resolve a conflict by majority vote and timestamp. -/
def resolve (r : ConflictResolver) (c : LedgerConflict) (votesForLocal votesForRemote : ℕ) :
    ResolveResult × ConflictResolver :=
  if c.resolveByMajority votesForLocal votesForRemote then
    (.useRemote c.remoteEntry,
      { r with resolvedCount := r.resolvedCount + 1, remoteWins := r.remoteWins + 1 })
  else
    (.useLocal c.localEntry,
      { r with resolvedCount := r.resolvedCount + 1, localWins := r.localWins + 1 })

/-- Resolution statistics: resolved, won by the local entry, won by the remote one. -/
def stats (r : ConflictResolver) : UInt64 × UInt64 × UInt64 :=
  (r.resolvedCount, r.localWins, r.remoteWins)

/-- A found conflict is one between a remote entry and the local entry with its id. -/
theorem mem_detectConflicts {localEntries remoteEntries : List Value} {c : LedgerConflict} :
    c ∈ detectConflicts localEntries remoteEntries ↔
      ∃ remote ∈ remoteEntries, ∃ id localEntry, idOf remote = some id ∧
        localMap localEntries id = some localEntry ∧ localEntry.toText ≠ remote.toText ∧
          .new localEntry remote = c := by
  simp [detectConflicts, Option.bind_eq_some_iff]

/-- The map of the local entries holds local entries under their id. -/
theorem mem_of_localMap {localEntries : List Value} {id : String} {e : Value}
    (h : localMap localEntries id = some e) : e ∈ localEntries ∧ idOf e = some id :=
  ⟨List.mem_reverse.mp (List.mem_of_find?_eq_some h), by simpa using List.find?_some h⟩

/-- Without votes the remote entry wins exactly when its timestamp is later. -/
theorem resolve_no_votes_entry (r : ConflictResolver) (localEntry remoteEntry : Value) :
    (r.resolve (.new localEntry remoteEntry) 0 0).1.entry =
      if timestampOf localEntry < timestampOf remoteEntry then remoteEntry
      else localEntry := by
  by_cases hnewer : timestampOf localEntry < timestampOf remoteEntry
  · simp [resolve, LedgerConflict.resolveByMajority, LedgerConflict.resolveByTimestamp,
      LedgerConflict.new, hnewer, ResolveResult.entry]
  · simp [resolve, LedgerConflict.resolveByMajority, LedgerConflict.resolveByTimestamp,
      LedgerConflict.new, hnewer, ResolveResult.entry]

end ConflictResolver

/-! ### Replicas of one entry -/

/-- A node's copy of one ledger entry, with its resolver. -/
structure Replica where
  held : Option Value
  resolver : ConflictResolver

namespace Replica

/-- A node that holds no version yet. -/
def empty : Replica where
  held := none
  resolver := .new

/-- Take the first version; resolve every later one against the version held. -/
def receive (r : Replica) (version : Value) : Replica :=
  match r.held with
  | none => { r with held := some version }
  | some held =>
      let (result, resolver) := r.resolver.resolve (.new held version) 0 0
      { held := some result.entry, resolver := resolver }

/-- Receive versions in order. -/
def receiveAll (r : Replica) (order : List Value) : Replica :=
  order.foldl receive r

/-- **One arrival**: the version held is replaced by one with a later timestamp. -/
theorem receive_held (r : Replica) (version : Value) :
    (r.receive version).held =
      List.argAux (fun b c => timestampOf c < timestampOf b) r.held version := by
  rw [receive]
  cases r.held with
  | none => rfl
  | some held =>
      simp only [ConflictResolver.resolve_no_votes_entry, List.argAux]
      split <;> rfl

/-- **All arrivals**: a replica ends with the first version of the latest timestamp. -/
theorem receiveAll_held (order : List Value) :
    (empty.receiveAll order).held = order.argmax timestampOf := by
  have hfold : ∀ (order : List Value) (r : Replica), (r.receiveAll order).held =
      order.foldl (List.argAux fun b c => timestampOf c < timestampOf b) r.held := by
    intro order
    induction order with
    | nil => exact fun _ => rfl
    | cons v rest ih =>
        intro r
        rw [List.foldl_cons, ← receive_held, ← ih]
        rfl
  exact hfold order empty

end Replica

/-- No version has a later timestamp. -/
def Latest (versions : List Value) (v : Value) : Prop :=
  v ∈ versions ∧ ∀ u ∈ versions, timestampOf u ≤ timestampOf v

/-- Received first, a version of the latest timestamp stays. -/
theorem Latest.argmax_cons {versions : List Value} {v : Value} {rest : List Value}
    (h : Latest versions v) (hperm : versions.Perm (v :: rest)) :
    (v :: rest).argmax timestampOf = some v := by
  rw [List.argmax_cons]
  cases hmax : rest.argmax timestampOf with
  | none => rfl
  | some u =>
      have hu : u ∈ versions :=
        hperm.mem_iff.mpr (List.mem_cons_of_mem _ (List.argmax_mem hmax))
      exact if_neg (not_lt.mpr (h.2 u hu))

/-- A replica ends with a version of the latest timestamp. -/
theorem latest_of_argmax {versions order : List Value} {v : Value}
    (hperm : order.Perm versions) (h : order.argmax timestampOf = some v) :
    Latest versions v :=
  ⟨hperm.mem_iff.mp (List.argmax_mem h),
    fun _ hu => List.le_of_mem_argmax (hperm.mem_iff.mpr hu) h⟩

/-- **Convergence**: two replicas that receive the same versions in any two orders always
end with the same version exactly when one version alone has the latest timestamp. -/
theorem replicas_converge_iff (versions : List Value) :
    (∀ order₁ order₂ : List Value, order₁.Perm versions → order₂.Perm versions →
        (Replica.empty.receiveAll order₁).held = (Replica.empty.receiveAll order₂).held) ↔
      ∀ v w, Latest versions v → Latest versions w → v = w := by
  constructor
  · intro hconv v w hv hw
    have hfirst : ∀ u ∈ versions, ∃ rest, versions.Perm (u :: rest) := by
      intro u hu
      obtain ⟨s, t, rfl⟩ := List.append_of_mem hu
      exact ⟨s ++ t, List.perm_middle⟩
    obtain ⟨vrest, hvrest⟩ := hfirst v hv.1
    obtain ⟨wrest, hwrest⟩ := hfirst w hw.1
    have heq := hconv _ _ hvrest.symm hwrest.symm
    rw [Replica.receiveAll_held, Replica.receiveAll_held, hv.argmax_cons hvrest,
      hw.argmax_cons hwrest] at heq
    exact Option.some.inj heq
  · intro hunique order₁ order₂ h₁ h₂
    rw [Replica.receiveAll_held, Replica.receiveAll_held]
    cases hmax₁ : order₁.argmax timestampOf with
    | none =>
        have hnil : order₁ = [] := List.argmax_eq_none.mp hmax₁
        subst hnil
        rw [(h₂.trans h₁.symm).eq_nil, List.argmax_nil]
    | some v =>
        cases hmax₂ : order₂.argmax timestampOf with
        | none =>
            have hnil : order₂ = [] := List.argmax_eq_none.mp hmax₂
            subst hnil
            rw [(h₁.trans h₂.symm).eq_nil, List.argmax_nil] at hmax₁
            cases hmax₁
        | some w =>
            rw [hunique v w (latest_of_argmax h₁ hmax₁) (latest_of_argmax h₂ hmax₂)]

/-- A deposit entry of the given amount. -/
def depositVersion (amount : String) : Value :=
  .object
    [("amount", .string amount), ("id", .string "tx1"),
      ("seq", .number (.int 1)), ("timestamp", .string "2024-01-01T00:00:00Z")]

/-- Two nodes that start from two versions of one entry with equal timestamps, and send
them to each other, keep different versions. -/
theorem equal_timestamps_diverge :
    ¬ ∀ (id : String) (versions : List Value), (∀ v ∈ versions, idOf v = some id) →
      versions.Pairwise (fun v w => v.toText ≠ w.toText) →
      ∀ order₁ order₂ : List Value, order₁.Perm versions → order₂.Perm versions →
        (Replica.empty.receiveAll order₁).held =
          (Replica.empty.receiveAll order₂).held := by
  intro hall
  have heq := hall "tx1" [depositVersion "100.00", depositVersion "200.00"] (by decide)
    (by decide) _ _ (List.Perm.refl _) (List.Perm.swap _ _ _)
  have htied : ∀ a b : String,
      ¬ timestampOf (depositVersion a) < timestampOf (depositVersion b) := fun _ _ => lt_irrefl _
  simp only [Replica.receiveAll_held, List.argmax_cons, List.argmax_nil, if_neg (htied _ _),
    Option.some.injEq] at heq
  simp [depositVersion] at heq

end VaultKeeper
