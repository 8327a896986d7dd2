import VaultKeeper.Replication

/-!
# The Death of a Peer

`ReplicationManager::handle_peer_death` of `storage/src/replication.rs`. One call removes the
peer from every tracked chunk and computes the flag of each anew. It returns the chunks that
lost shards and whose flag is not set, and a second call finds nothing left to do.

The flag compares the target with the sum of the remaining counts as the machine adds them, so
a chunk that has enough shards left is returned when their sum wraps around to less than the
target.

## Main results

* `removePeer_removePeer`: a second removal of a peer removes nothing and changes nothing.
* `peerDeathExact_iff`: when a death is accounted exactly.
* `peerDeath_exact_iff`: for the managers of a run.
-/

namespace VaultKeeper

namespace ReplicationState

/-- The shards of all peers but one, as a natural number. -/
def remainingShards (s : ReplicationState) (p : String) : ℕ :=
  ((ValueMap.values (s.currentReplicas.erase p)).map UInt64.toNat).sum

/-- A peer holds at least one shard of a chunk. -/
def HeldBy (s : ReplicationState) (p : String) : Prop :=
  ∃ n, s.currentReplicas.lookup p = some n ∧ 0 < n

/-- What a removal returns is positive exactly when the peer held a shard. -/
theorem removePeer_fst_pos_iff (s : ReplicationState) (p : String) :
    0 < (s.removePeer p).1 ↔ s.HeldBy p := by
  rw [removePeer, HeldBy]
  cases hp : s.currentReplicas.lookup p with
  | none => simp
  | some n => simp

/-- The flag after a removal. -/
theorem removePeer_isComplete_iff (s : ReplicationState) (p : String) :
    (s.removePeer p).2.isComplete = true ↔
      s.targetReplicas.toNat ≤ s.remainingShards p % 2 ^ 64 :=
  checkReplication_iff (s.removePeer p).2

/-- **Once is enough**: a second removal of a peer removes nothing and changes nothing. -/
theorem removePeer_removePeer (s : ReplicationState) (p : String) :
    (s.removePeer p).2.removePeer p = (0, (s.removePeer p).2) := by
  have hgone : p ∉ s.currentReplicas.erase p := fun hp =>
    (AList.mem_erase.mp hp).1 rfl
  have herase : (s.currentReplicas.erase p).erase p = s.currentReplicas.erase p :=
    AList.ext (List.kerase_of_notMem_keys hgone)
  simp only [removePeer, AList.lookup_erase, Option.getD_none, herase]
  rfl

end ReplicationState

open ReplicationState

/-- A chunk needs repair when the peer held a shard and the machine finds the target above the
sum of the remaining counts. -/
theorem needsRepair_iff (p : String) (s : ReplicationState) :
    ReplicationManager.needsRepair p s = true ↔
      s.HeldBy p ∧ s.remainingShards p % 2 ^ 64 < s.targetReplicas.toNat := by
  rw [← Nat.not_le, ← removePeer_isComplete_iff, ← removePeer_fst_pos_iff]
  simp [ReplicationManager.needsRepair]

/-! ### What one call does -/

/-- A chunk is returned when it needs repair. -/
theorem mem_handlePeerDeath {m : ReplicationManager} {p c : String} :
    c ∈ (m.handlePeerDeath p).1 ↔
      ∃ s, m.states.lookup c = some s ∧ ReplicationManager.needsRepair p s = true := by
  rw [ReplicationManager.handlePeerDeath, List.mem_map]
  constructor
  · rintro ⟨⟨c, s⟩, he, rfl⟩
    obtain ⟨hmem, hrepair⟩ := List.mem_filter.mp he
    exact ⟨s, AList.mem_lookup_iff.mpr hmem, hrepair⟩
  · rintro ⟨s, hs, hrepair⟩
    exact ⟨⟨c, s⟩, List.mem_filter.mpr ⟨AList.mem_lookup_iff.mp hs, hrepair⟩, rfl⟩

/-- A chunk is returned once. -/
theorem nodup_handlePeerDeath (m : ReplicationManager) (p : String) :
    (m.handlePeerDeath p).1.Nodup :=
  m.states.keys_nodup.sublist (List.filter_sublist.map Sigma.fst)

theorem lookup_handlePeerDeath (m : ReplicationManager) (p c : String) :
    (m.handlePeerDeath p).2.states.lookup c =
      (m.states.lookup c).map fun s => (s.removePeer p).2 :=
  ValueMap.lookup_mapValues _ _ _

/-- The counts of the dead peer are gone, and no other count is. -/
theorem recorded_handlePeerDeath_iff {m : ReplicationManager} {p c q : String} {k : UInt64} :
    Recorded c q k (m.handlePeerDeath p).2 ↔ q ≠ p ∧ Recorded c q k m := by
  rw [Recorded, lookup_handlePeerDeath, Recorded]
  by_cases hq : q = p
  · subst hq
    simp [removePeer]
  · simp [removePeer, AList.lookup_erase_ne hq, hq]

/-- **Twice is once**: a second death of the peer returns nothing and changes nothing. -/
theorem handlePeerDeath_handlePeerDeath (m : ReplicationManager) (p : String) :
    (m.handlePeerDeath p).2.handlePeerDeath p = ([], (m.handlePeerDeath p).2) := by
  have hreturned : ((m.handlePeerDeath p).2.handlePeerDeath p).1 = [] := by
    rw [List.eq_nil_iff_forall_not_mem]
    intro c hc
    obtain ⟨s, hs, hrepair⟩ := mem_handlePeerDeath.mp hc
    rw [lookup_handlePeerDeath] at hs
    obtain ⟨s, -, rfl⟩ := Option.map_eq_some_iff.mp hs
    simp [ReplicationManager.needsRepair, removePeer_removePeer] at hrepair
  have hstates : ((m.handlePeerDeath p).2.handlePeerDeath p).2.states =
      (m.handlePeerDeath p).2.states := by
    simp only [ReplicationManager.handlePeerDeath, ValueMap.mapValues_mapValues,
      removePeer_removePeer]
  have hmanager : ((m.handlePeerDeath p).2.handlePeerDeath p).2 = (m.handlePeerDeath p).2 :=
    congrArg (fun states => { m with states := states }) hstates
  exact Prod.ext hreturned hmanager

/-! ### When a death is accounted exactly -/

/-- The death of a peer is accounted exactly: the call returns, each once, the tracked chunks
of which the peer held a shard and the remaining counts do not reach the target; the counts of
the peer are gone, the other counts and the targets are as before; and a second call returns
nothing and changes nothing. -/
structure PeerDeathExact (m : ReplicationManager) (p : String) : Prop where
  once : (m.handlePeerDeath p).1.Nodup
  returned : ∀ c, c ∈ (m.handlePeerDeath p).1 ↔
    ∃ s, m.states.lookup c = some s ∧ s.HeldBy p ∧
      s.remainingShards p < s.targetReplicas.toNat
  gone : ∀ c s, (m.handlePeerDeath p).2.states.lookup c = some s → p ∉ s.currentReplicas
  counts : ∀ c q k, q ≠ p → (Recorded c q k (m.handlePeerDeath p).2 ↔ Recorded c q k m)
  targets : ∀ c, ((m.handlePeerDeath p).2.states.lookup c).map targetReplicas =
    (m.states.lookup c).map targetReplicas
  again : (m.handlePeerDeath p).2.handlePeerDeath p = ([], (m.handlePeerDeath p).2)

/-- **One call**: all of it holds but for the chunks that are returned although the remaining
counts reach the target. -/
theorem peerDeathExact_iff (m : ReplicationManager) (p : String) :
    PeerDeathExact m p ↔ ∀ c s, m.states.lookup c = some s → s.HeldBy p →
      s.targetReplicas.toNat ≤ s.remainingShards p →
        s.targetReplicas.toNat ≤ s.remainingShards p % 2 ^ 64 := by
  constructor
  · intro hexact c s hs hheld hreached
    by_contra hwrapped
    have hreturned := mem_handlePeerDeath.mpr
      ⟨s, hs, (needsRepair_iff p s).mpr ⟨hheld, Nat.lt_of_not_le hwrapped⟩⟩
    obtain ⟨s', hs', -, hshort⟩ := (hexact.returned c).mp hreturned
    obtain rfl : s = s' := Option.some.inj (hs.symm.trans hs')
    exact absurd hreached hshort.not_ge
  · intro hfits
    refine ⟨nodup_handlePeerDeath m p, fun c => ?_, fun c s hs hp => ?_, fun c q k hq => ?_,
      fun c => ?_, handlePeerDeath_handlePeerDeath m p⟩
    · rw [mem_handlePeerDeath]
      refine exists_congr fun s => and_congr_right fun hs => ?_
      rw [needsRepair_iff]
      refine and_congr_right fun hheld => ?_
      have hmod : s.remainingShards p % 2 ^ 64 ≤ s.remainingShards p := Nat.mod_le ..
      have hfit := hfits c s hs hheld
      omega
    · obtain ⟨k, hk⟩ := Option.isSome_iff_exists.mp (AList.lookup_isSome.mpr hp)
      exact (recorded_handlePeerDeath_iff.mp ⟨s, hs, hk⟩).1 rfl
    · rw [recorded_handlePeerDeath_iff]
      exact and_iff_right hq
    · rw [lookup_handlePeerDeath, Option.map_map]
      rfl

/-- **Peer death**: after every run, the death of a peer is accounted exactly when, for every
tracked chunk of which the peer holds a shard, the sum of the other counts does not fall below
the target by wrapping around. -/
theorem peerDeath_exact_iff (defaultReplicas : UInt32) (calls : List ReplicationCall)
    (p : String) :
    let m := calls.foldl replicationStep (.new defaultReplicas)
    PeerDeathExact m p ↔ ∀ c s, m.states.lookup c = some s → s.HeldBy p →
      s.targetReplicas.toNat ≤ s.remainingShards p →
        s.targetReplicas.toNat ≤ s.remainingShards p % 2 ^ 64 :=
  peerDeathExact_iff _ p

/-- Two peers report `2 ^ 63` shards each, and a third one. -/
def hugeReports : List ReplicationCall :=
  [.registerChunk "c", .recordPeerShards "c" "p" 1,
    .recordPeerShards "c" "q" 9223372036854775808, .recordPeerShards "c" "r" 9223372036854775808]

/-- The two peers have enough shards without the third, and the chunk is returned. -/
theorem peerDeath_wraps :
    ¬ PeerDeathExact (hugeReports.foldl replicationStep (.new 3)) "p" := by
  intro hexact
  have hreturned :
      "c" ∈ ((hugeReports.foldl replicationStep (.new 3)).handlePeerDeath "p").1 := by
    decide +kernel
  obtain ⟨s, hs, -, hshort⟩ := (hexact.returned "c").mp hreturned
  have hsum : ((hugeReports.foldl replicationStep (.new 3)).states.lookup "c").map
      (fun s => s.remainingShards "p") = some (2 ^ 64) := by
    decide +kernel
  rw [hs, Option.map_some, Option.some.injEq] at hsum
  have htarget := s.targetReplicas.toNat_lt
  omega

end VaultKeeper
