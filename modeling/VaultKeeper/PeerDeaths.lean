import Mathlib.Algebra.Order.BigOperators.Group.List
import Mathlib.Algebra.Order.Group.Nat
import VaultKeeper.PeerDeath

/-!
# Several Deaths

Any number of peers die, in any order, some perhaps more than once, and
`ReplicationManager::handle_peer_death` of `storage/src/replication.rs` is called for each.
Every call looks at what the calls before it have left, so which chunks one of them returns
depends on the order. Together they return the chunks that have lost shards and are left with
too few, and what they leave is what the dead peers did not hold, in every order.

## Main results

* `deaths_returned_iff`: the chunks that one of several calls returns.
* `deaths_left`: the counts and the flags that they leave.
* `deaths_accounted`: both, for the managers of a run.
-/

namespace VaultKeeper

namespace ReplicationState

/-- The shards of all peers that are not dead. -/
def survivingShards (s : ReplicationState) (dead : List String) : ℕ :=
  ((s.currentReplicas.entries.filter fun e => e.1 ∉ dead).map fun e => e.2.toNat).sum

/-- Without a key a map has the other entries. -/
theorem entries_erase {κ α : Type*} [DecidableEq κ] (m : AList fun _ : κ => α) (k : κ) :
    (m.erase k).entries = m.entries.filter fun e => e.1 ≠ k := by
  obtain ⟨entries, hnodup⟩ := m
  change List.kerase k entries = _
  induction entries with
  | nil => rfl
  | cons e rest ih =>
      have hrest := List.nodupKeys_cons.mp hnodup
      by_cases hk : e.1 = k
      · subst hk
        rw [List.kerase_cons_eq rfl, List.filter_cons_of_neg (by simp), List.filter_eq_self.mpr]
        intro f hf
        rw [decide_eq_true_eq]
        exact fun heq => hrest.1 (heq ▸ List.mem_map_of_mem hf)
      · rw [List.kerase_cons_ne (Ne.symm hk), List.filter_cons_of_pos (by simpa using hk),
          ih hrest.2]

theorem survivingShards_nil (s : ReplicationState) : s.survivingShards [] = s.recordedShards := by
  rw [survivingShards, List.filter_eq_self.mpr (by simp), recordedShards, ValueMap.values,
    List.map_map]
  rfl

/-- What survives one death and the others survives all of them. -/
theorem survivingShards_removePeer (s : ReplicationState) (p : String) (dead : List String) :
    (s.removePeer p).2.survivingShards dead = s.survivingShards (p :: dead) := by
  rw [survivingShards, survivingShards, removePeer]
  dsimp only
  rw [entries_erase, List.filter_filter]
  congr 2
  refine List.filter_congr fun e _ => ?_
  simp [Bool.and_comm]

/-- No more shards survive than there are. -/
theorem survivingShards_le (s : ReplicationState) (dead : List String) :
    s.survivingShards dead ≤ s.recordedShards := by
  rw [survivingShards, recordedShards, ValueMap.values, List.map_map]
  exact (List.filter_sublist.map _).sum_le_sum fun _ _ => Nat.zero_le _

/-- What all but one peer hold is what survives its death. -/
theorem survivingShards_singleton (s : ReplicationState) (p : String) :
    s.survivingShards [p] = s.remainingShards p := by
  rw [← survivingShards_removePeer, survivingShards_nil]
  rfl

/-- When no dead peer holds a shard all of them survive. -/
theorem survivingShards_of_not_heldBy {s : ReplicationState} {dead : List String}
    (h : ∀ p ∈ dead, ¬ s.HeldBy p) : s.survivingShards dead = s.recordedShards := by
  have hzero : ∀ e ∈ s.currentReplicas.entries, e.1 ∈ dead → e.2.toNat = 0 := by
    intro e he hdead
    by_contra hpos
    refine h e.1 hdead ⟨e.2, AList.mem_lookup_iff.mpr he, ?_⟩
    rw [UInt64.lt_iff_toNat_lt]
    exact Nat.pos_of_ne_zero hpos
  rw [survivingShards, recordedShards, ValueMap.values, List.map_map]
  generalize s.currentReplicas.entries = entries at hzero
  induction entries with
  | nil => rfl
  | cons e rest ih =>
      rw [List.forall_mem_cons] at hzero
      rw [List.map_cons, List.sum_cons, ← ih hzero.2, Function.comp_apply]
      by_cases hdead : e.1 ∈ dead
      · rw [List.filter_cons_of_neg (by simpa using hdead), hzero.1 hdead, Nat.zero_add]
      · rw [List.filter_cons_of_pos (by simpa using hdead), List.map_cons, List.sum_cons]

/-- A dead peer holds nothing, and the others what they held. -/
theorem heldBy_removePeer_iff {s : ReplicationState} {p q : String} :
    (s.removePeer p).2.HeldBy q ↔ q ≠ p ∧ s.HeldBy q := by
  rw [HeldBy, HeldBy, removePeer]
  rcases eq_or_ne q p with rfl | hne
  · simp
  · simp [AList.lookup_erase_ne hne, hne]

end ReplicationState

open ReplicationState

/-! ### Several calls -/

namespace ReplicationManager

/-- Handle several dead peers one after another; all chunks that are returned. -/
def handlePeerDeaths (m : ReplicationManager) : List String → List String × ReplicationManager
  | [] => ([], m)
  | p :: dead =>
      let (chunks, m) := m.handlePeerDeath p
      let (more, m) := handlePeerDeaths m dead
      (chunks ++ more, m)

end ReplicationManager

/-- No sum of counts of a chunk is out of the range of `usize`. -/
def FitsUsize (m : ReplicationManager) : Prop :=
  ∀ c s, m.states.lookup c = some s → s.recordedShards < 2 ^ 64

theorem fitsUsize_iff {m : ReplicationManager} :
    FitsUsize m ↔ ∀ s ∈ ValueMap.values m.states, s.recordedShards < 2 ^ 64 := by
  simp only [ValueMap.mem_values_iff, forall_exists_index]
  exact forall_comm

/-- It stays so when a peer dies. -/
theorem FitsUsize.handlePeerDeath {m : ReplicationManager} (h : FitsUsize m) (p : String) :
    FitsUsize (m.handlePeerDeath p).2 := by
  intro c s hs
  rw [lookup_handlePeerDeath] at hs
  obtain ⟨s, hbefore, rfl⟩ := Option.map_eq_some_iff.mp hs
  rw [← survivingShards_nil, survivingShards_removePeer]
  exact lt_of_le_of_lt (survivingShards_le s [p]) (h c s hbefore)

/-- Then no remaining counts wrap around either. -/
theorem FitsUsize.mod_eq {m : ReplicationManager} (h : FitsUsize m) {c : String}
    {s : ReplicationState} (hs : m.states.lookup c = some s) (p : String) :
    s.remainingShards p % 2 ^ 64 = s.remainingShards p := by
  rw [← survivingShards_singleton]
  exact Nat.mod_eq_of_lt (lt_of_le_of_lt (survivingShards_le s [p]) (h c s hs))

/-- **The chunks returned**: for any peers that die, in any order, the calls return the chunks of
which one of these peers held a shard and the others together hold too few. -/
theorem deaths_returned_iff {m : ReplicationManager} (h : FitsUsize m) (dead : List String)
    (c : String) :
    c ∈ (m.handlePeerDeaths dead).1 ↔
      ∃ s, m.states.lookup c = some s ∧ (∃ p ∈ dead, s.HeldBy p) ∧
        s.survivingShards dead < s.targetReplicas.toNat := by
  induction dead generalizing m with
  | nil =>
      refine iff_of_false List.not_mem_nil ?_
      rintro ⟨s, -, ⟨p, hp, -⟩, -⟩
      cases hp
  | cons p dead ih =>
      rw [ReplicationManager.handlePeerDeaths, List.mem_append, mem_handlePeerDeath,
        ih (h.handlePeerDeath p), lookup_handlePeerDeath]
      cases hs : m.states.lookup c with
      | none => simp
      | some s =>
          have hlater := survivingShards_removePeer s p dead
          simp only [Option.map_some, Option.some.injEq, exists_eq_left', needsRepair_iff,
            h.mod_eq hs p, hlater, List.exists_mem_cons_iff]
          constructor
          · rintro (⟨hheld, hshort⟩ | ⟨⟨q, hq, hheld⟩, hshort⟩)
            · -- the call for this peer: those that die later leave no more
              refine ⟨Or.inl hheld, lt_of_le_of_lt ?_ hshort⟩
              rw [← hlater]
              exact survivingShards_le _ dead
            · exact ⟨Or.inr ⟨q, hq, (heldBy_removePeer_iff.mp hheld).2⟩, hshort⟩
          · rintro ⟨hheld, hshort⟩
            by_cases hmore : ∃ q ∈ dead, (s.removePeer p).2.HeldBy q
            · exact Or.inr ⟨hmore, hshort⟩
            · -- no later one holds a shard, so all that is left now survives
              have hall : s.survivingShards (p :: dead) = s.remainingShards p := by
                rw [← hlater, survivingShards_of_not_heldBy fun q hq hheld => hmore ⟨q, hq, hheld⟩]
                rfl
              rw [hall] at hshort
              refine Or.inl ⟨?_, hshort⟩
              rcases hheld with hheld | ⟨q, hq, hheld⟩
              · exact hheld
              · by_contra hnot
                refine hmore ⟨q, hq, heldBy_removePeer_iff.mpr ⟨?_, hheld⟩⟩
                rintro rfl
                exact hnot hheld

/-- **What several deaths leave**: in every order, the counts of the peers that did not die;
and when any peer died, the chunks are complete for which these reach the target. -/
theorem deaths_left {m : ReplicationManager} (h : FitsUsize m) (dead : List String) :
    (∀ c q k, Recorded c q k (m.handlePeerDeaths dead).2 ↔ q ∉ dead ∧ Recorded c q k m) ∧
      (dead ≠ [] → ∀ c, (m.handlePeerDeaths dead).2.isReplicated c = true ↔
        ∃ s, m.states.lookup c = some s ∧
          s.targetReplicas.toNat ≤ s.survivingShards dead) := by
  induction dead generalizing m with
  | nil => exact ⟨by simp [ReplicationManager.handlePeerDeaths], fun hne => absurd rfl hne⟩
  | cons p dead ih =>
      obtain ⟨hcounts, hflags⟩ := ih (h.handlePeerDeath p)
      rw [ReplicationManager.handlePeerDeaths]
      refine ⟨fun c q k => ?_, fun _ c => ?_⟩
      · rw [hcounts, recorded_handlePeerDeath_iff, List.mem_cons, not_or, and_left_comm, and_assoc]
      · rcases eq_or_ne dead [] with rfl | hne
        · -- the last call computes the flag from the counts that are left
          change (m.handlePeerDeath p).2.isReplicated c = true ↔ _
          rw [ReplicationManager.isReplicated, lookup_handlePeerDeath]
          cases hs : m.states.lookup c with
          | none => simp
          | some s =>
              simp only [Option.map_some, Option.getD_some, Option.some.injEq, exists_eq_left',
                removePeer_isComplete_iff, h.mod_eq hs p, survivingShards_singleton]
        · refine (hflags hne c).trans ?_
          rw [lookup_handlePeerDeath]
          cases hs : m.states.lookup c with
          | none => simp
          | some s =>
              simp only [Option.map_some, Option.some.injEq, exists_eq_left',
                survivingShards_removePeer]
              rfl

/-- **Deaths in any order**: after every run, for any peers that die in any order, the calls
together return the chunks of which one of these peers held a shard and the others together
hold too few; the counts of the others are left, and, when any peer died, the chunks are
complete for which these reach the target. So neither depends on the order. -/
theorem deaths_accounted (defaultReplicas : UInt32) (calls : List ReplicationCall)
    (dead : List String) (h : FitsUsize (calls.foldl replicationStep (.new defaultReplicas))) :
    let m := calls.foldl replicationStep (.new defaultReplicas)
    (∀ c, c ∈ (m.handlePeerDeaths dead).1 ↔ ∃ s, m.states.lookup c = some s ∧
        (∃ p ∈ dead, s.HeldBy p) ∧ s.survivingShards dead < s.targetReplicas.toNat) ∧
      (∀ c q k, Recorded c q k (m.handlePeerDeaths dead).2 ↔ q ∉ dead ∧ Recorded c q k m) ∧
      (dead ≠ [] → ∀ c, (m.handlePeerDeaths dead).2.isReplicated c = true ↔
        ∃ s, m.states.lookup c = some s ∧
          s.targetReplicas.toNat ≤ s.survivingShards dead) :=
  ⟨deaths_returned_iff h dead, deaths_left h dead⟩

/-- Three peers have a shard each, and two are enough. -/
def threeReports : List ReplicationCall :=
  [.registerChunk "c", .recordPeerShards "c" "p" 1, .recordPeerShards "c" "q" 1,
    .recordPeerShards "c" "r" 1]

/-- Two of them die, and the chunk is returned, in both orders. -/
theorem deaths_accounted_two :
    let m := threeReports.foldl replicationStep (.new 2)
    "c" ∈ (m.handlePeerDeaths ["q", "p"]).1 ∧ "c" ∈ (m.handlePeerDeaths ["p", "q"]).1 := by
  intro m
  have hfits : FitsUsize m := fitsUsize_iff.mpr (by decide +kernel)
  obtain ⟨s, hs⟩ : ∃ s, m.states.lookup "c" = some s :=
    Option.isSome_iff_exists.mp (by decide +kernel)
  have hshort : (m.states.lookup "c").all (fun s => s.survivingShards ["q", "p"] < 2 ∧
      s.survivingShards ["p", "q"] < 2 ∧ s.targetReplicas.toNat = 2 ∧
        s.currentReplicas.lookup "p" = some 1) = true := by decide +kernel
  rw [hs, Option.all_some, decide_eq_true_eq] at hshort
  obtain ⟨hqp, hpq, htarget, hheld⟩ := hshort
  exact ⟨((deaths_accounted 2 threeReports ["q", "p"] hfits).1 "c").mpr
      ⟨s, hs, ⟨"p", by simp, 1, hheld, by decide⟩, htarget ▸ hqp⟩,
    ((deaths_accounted 2 threeReports ["p", "q"] hfits).1 "c").mpr
      ⟨s, hs, ⟨"p", by simp, 1, hheld, by decide⟩, htarget ▸ hpq⟩⟩

end VaultKeeper
