import Mathlib.Data.Prod.Lex
import VaultKeeper.Conflict
import VaultKeeper.LatestWins
import VaultKeeper.Runs

/-!
# Conflicts Resolved by Vote

The whole strategy of `ledger/src/conflict.rs`: the version with more votes wins, and of two
with as many the one with the later timestamp. Nodes that start from versions of one entry
send the version they hold to each other and resolve what arrives against it, each with the
counts of a common tally on the side that each version stands on. What was sent may arrive at
any node, at any later time, any number of times or never.

## Main results

* `ConflictResolver.resolve_votes_entry`: the entry that wins is the one with the greater key.
* `VoteNet.vote_converges`: the version that a node holds after any run.
-/

namespace VaultKeeper

open LatestWins

/-- The votes for a version, and its timestamp. -/
def voteKey (votes : Value → ℕ) (e : Value) : ℕ ×ₗ String :=
  toLex (votes e, timestampOf e)

theorem voteKey_lt_iff {votes : Value → ℕ} {e f : Value} :
    voteKey votes e < voteKey votes f ↔
      votes e < votes f ∨ votes e = votes f ∧ timestampOf e < timestampOf f :=
  Prod.Lex.toLex_lt_toLex

/-- **A vote**: the remote entry wins exactly when its key is greater, on whichever side the
two entries stand. -/
theorem ConflictResolver.resolve_votes_entry (r : ConflictResolver) (votes : Value → ℕ)
    (held arriving : Value) :
    (r.resolve (.new held arriving) (votes held) (votes arriving)).1.entry =
      merge (voteKey votes) held arriving := by
  have hmajority : (LedgerConflict.new held arriving).resolveByMajority (votes held)
      (votes arriving) = true ↔ voteKey votes held < voteKey votes arriving := by
    rw [voteKey_lt_iff, LedgerConflict.resolveByMajority]
    split_ifs with hmore hless
    · exact iff_of_true rfl (Or.inl hmore)
    · exact iff_of_false (by simp) (by omega)
    · rw [and_iff_right (by omega : votes held = votes arriving), or_iff_right hmore]
      exact decide_eq_true_iff
  rw [merge, resolve]
  by_cases hlater : voteKey votes held < voteKey votes arriving
  · rw [if_pos (hmajority.mpr hlater), if_pos hlater]
    rfl
  · rw [if_neg (mt hmajority.mp hlater), if_neg hlater]
    rfl

/-! ### The network -/

/-- A node with its version of the entry. The nodes whose versions it has been compared with
are kept for the statements: nothing reads them. -/
structure VoteNode (ι : Type*) where
  version : Value
  resolver : ConflictResolver
  heard : Finset ι

/-- The nodes, and all copies sent so far, with what their senders had heard of. -/
structure VoteNet (ι : Type*) where
  node : ι → VoteNode ι
  sent : List (Value × Finset ι)

/-- A node sends its version, or a copy that was sent is delivered by its place. -/
inductive VoteEvent (ι : Type*)
  | send (i : ι)
  | deliver (place : ℕ) (i : ι)

variable {ι : Type*}

/-- Resolve a version that arrives against the version held. -/
def VoteNode.receive [DecidableEq ι] (n : VoteNode ι) (votes : Value → ℕ) (arriving : Value)
    (heard : Finset ι) : VoteNode ι :=
  let (result, resolver) :=
    n.resolver.resolve (.new n.version arriving) (votes n.version) (votes arriving)
  { version := result.entry, resolver := resolver, heard := n.heard ∪ heard }

namespace VoteNet

/-- Every node has the version that it wrote. -/
def new (wrote : ι → Value) : VoteNet ι where
  node i := { version := wrote i, resolver := .new, heard := {i} }
  sent := []

variable [DecidableEq ι]

/-- One event. -/
def step (votes : Value → ℕ) (s : VoteNet ι) : VoteEvent ι → VoteNet ι
  | .send i => { s with sent := s.sent ++ [((s.node i).version, (s.node i).heard)] }
  | .deliver place i =>
      match s.sent[place]? with
      | none => s
      | some (arriving, heard) =>
          { s with node := Function.update s.node i ((s.node i).receive votes arriving heard) }

/-- What holds between events: each version that is held or was sent is the one with the
greatest key of those it was compared with. -/
structure Invariant (votes : Value → ℕ) (wrote : ι → Value) (s : VoteNet ι) : Prop where
  held : ∀ i, IsLatest (voteKey votes) (fun j => some (wrote j)) (s.node i).heard
    (s.node i).version
  sent : ∀ m ∈ s.sent, IsLatest (voteKey votes) (fun j => some (wrote j)) m.2 m.1

variable {votes : Value → ℕ} {wrote : ι → Value} {s : VoteNet ι}

omit [DecidableEq ι] in
theorem new_invariant (votes : Value → ℕ) (wrote : ι → Value) :
    (new wrote).Invariant votes wrote where
  held _ := IsLatest.singleton rfl
  sent _ hm := nomatch hm

/-- **The step**: every event keeps the invariant. -/
theorem Invariant.step (hs : s.Invariant votes wrote) (event : VoteEvent ι) :
    (s.step votes event).Invariant votes wrote := by
  cases event with
  | send i =>
      refine ⟨hs.held, ?_⟩
      rw [VoteNet.step, List.forall_mem_append, List.forall_mem_singleton]
      exact ⟨hs.sent, hs.held i⟩
  | deliver place i =>
      rw [VoteNet.step]
      split
      · exact hs
      · next arriving heard hplace =>
        refine ⟨fun j => ?_, hs.sent⟩
        dsimp only
        rcases eq_or_ne j i with rfl | hne
        · rw [Function.update_self, VoteNode.receive]
          dsimp only
          rw [ConflictResolver.resolve_votes_entry]
          exact (hs.held j).merge (hs.sent _ (List.mem_of_getElem? hplace))
        · rw [Function.update_of_ne hne]
          exact hs.held j

/-- **The vote decides everywhere**: after any run, whatever was lost, repeated or delivered
out of order, each node holds a version that one of the nodes it has heard of wrote, and none
of these wrote one with more votes, or with as many and a later timestamp. Nodes that have
heard of the same nodes hold the same version, unless two of these wrote different versions
with as many votes and one timestamp. -/
theorem vote_converges (votes : Value → ℕ) (wrote : ι → Value) (events : List (VoteEvent ι)) :
    let s := events.foldl (step votes) (new wrote)
    (∀ i, (∃ j ∈ (s.node i).heard, wrote j = (s.node i).version) ∧
      ∀ j ∈ (s.node i).heard, ¬ (votes (s.node i).version < votes (wrote j) ∨
        votes (s.node i).version = votes (wrote j) ∧
          timestampOf (s.node i).version < timestampOf (wrote j))) ∧
      ∀ i j, (s.node i).heard = (s.node j).heard →
        (∀ k ∈ (s.node i).heard, ∀ l ∈ (s.node i).heard, votes (wrote k) = votes (wrote l) →
          timestampOf (wrote k) = timestampOf (wrote l) → wrote k = wrote l) →
          (s.node i).version = (s.node j).version := by
  intro s
  have hs : s.Invariant votes wrote :=
    Runs.invariant_foldl (step votes) (G := fun _ _ => True) (fun _ event hs _ => hs.step event)
      (new_invariant votes wrote) fun _ _ => trivial
  refine ⟨fun i => ⟨?_, fun j hj hmore => ?_⟩, fun i j hheard hties => ?_⟩
  · obtain ⟨j, hj, hwrote⟩ := (hs.held i).written
    exact ⟨j, hj, Option.some.inj hwrote⟩
  · obtain ⟨u, hu, hle⟩ := (hs.held i).le j hj
    obtain rfl := Option.some.inj hu
    exact absurd (voteKey_lt_iff.mpr hmore) (not_lt.mpr hle)
  · have hlatest := hs.held j
    rw [← hheard] at hlatest
    refine (hs.held i).eq_of_heard_eq (fun k hk l hl u v hu hv hkey => ?_) hlatest
    obtain rfl := Option.some.inj hu
    obtain rfl := Option.some.inj hv
    obtain ⟨hvotes, htime⟩ := Prod.mk.inj (toLex.injective hkey)
    exact hties k hk l hl hvotes htime

end VoteNet

end VaultKeeper
