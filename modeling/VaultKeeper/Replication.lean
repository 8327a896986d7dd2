import Mathlib.Algebra.GroupWithZero.Nat
import VaultKeeper.Runs
import VaultKeeper.ValueMap

/-!
# Replication

`storage/src/replication.rs`: which peers hold how many shards of which chunk, and whether
they are enough. Each chunk keeps the counts of its peers and a flag, which is computed anew
whenever a count is recorded or a peer is removed. Counts are `usize`, 64 bits, and their sum
wraps around.

Registering a chunk that is tracked starts it over, and a chunk that was just registered is
flagged as incomplete whatever its target.

## Main results

* `lookup_replicationStep`: a call acts on each chunk for itself.
* `replica_kept_iff`: a recorded count is kept exactly when the chunk is not registered again.
* `truthful_iff`: when the flags and the list of chunks needing replication tell the truth.
-/

namespace VaultKeeper

/-- Replication state for a chunk, with the shard counts of its peers. -/
structure ReplicationState where
  chunkId : String
  targetReplicas : UInt32
  currentReplicas : AList fun _ : String => UInt64
  isComplete : Bool

namespace ReplicationState

def new (chunkId : String) (targetReplicas : UInt32) : ReplicationState where
  chunkId := chunkId
  targetReplicas := targetReplicas
  currentReplicas := ∅
  isComplete := false

/-- The sum of the counts as the machine adds them. -/
def totalShards (s : ReplicationState) : UInt64 :=
  (ValueMap.values s.currentReplicas).foldl (· + ·) 0

/-- Check if replication is sufficient. -/
def checkReplication (s : ReplicationState) : Bool :=
  decide (s.targetReplicas.toUInt64 ≤ s.totalShards)

/-- Add a replica for a peer. -/
def addReplica (s : ReplicationState) (peerId : String) (shardCount : UInt64) :
    ReplicationState :=
  let s := { s with currentReplicas := s.currentReplicas.insert peerId shardCount }
  { s with isComplete := s.checkReplication }

/-- Remove replicas from a dead peer. -/
def removePeer (s : ReplicationState) (peerId : String) : UInt64 × ReplicationState :=
  let removed := (s.currentReplicas.lookup peerId).getD 0
  let s := { s with currentReplicas := s.currentReplicas.erase peerId }
  (removed, { s with isComplete := s.checkReplication })

end ReplicationState

/-- Replication manager: tracks and triggers replication. -/
structure ReplicationManager where
  states : AList fun _ : String => ReplicationState
  defaultReplicas : UInt32

namespace ReplicationManager

def new (defaultReplicas : UInt32) : ReplicationManager where
  states := ∅
  defaultReplicas := defaultReplicas

/-- Register a chunk for replication tracking. -/
def registerChunk (m : ReplicationManager) (chunkId : String) : ReplicationManager :=
  { m with states := m.states.insert chunkId (.new chunkId m.defaultReplicas) }

/-- Record that a peer holds shards for a chunk. -/
def recordPeerShards (m : ReplicationManager) (chunkId peerId : String) (shardCount : UInt64) :
    ReplicationManager :=
  match m.states.lookup chunkId with
  | some state => { m with states := m.states.insert chunkId (state.addReplica peerId shardCount) }
  | none => m

/-- Whether a chunk has lost shards with a peer and is not complete without them. -/
def needsRepair (deadPeerId : String) (state : ReplicationState) : Bool :=
  let (removed, state) := state.removePeer deadPeerId
  decide (0 < removed) && !state.isComplete

/-- Handle a dead peer: mark chunks as needing re-replication. -/
def handlePeerDeath (m : ReplicationManager) (deadPeerId : String) :
    List String × ReplicationManager :=
  ((m.states.entries.filter fun e => needsRepair deadPeerId e.2).map Sigma.fst,
    { m with states := ValueMap.mapValues (fun s => (s.removePeer deadPeerId).2) m.states })

/-- Get all chunks that need replication. -/
def chunksNeedingReplication (m : ReplicationManager) : List ReplicationState :=
  (ValueMap.values m.states).filter fun s => !s.isComplete

/-- Check if a chunk has sufficient replication. -/
def isReplicated (m : ReplicationManager) (chunkId : String) : Bool :=
  ((m.states.lookup chunkId).map ReplicationState.isComplete).getD false

/-- Remove chunk from tracking. -/
def unregisterChunk (m : ReplicationManager) (chunkId : String) : ReplicationManager :=
  { m with states := m.states.erase chunkId }

end ReplicationManager

/-! ### Runs -/

/-- A call on a manager. -/
inductive ReplicationCall
  | registerChunk (chunkId : String)
  | recordPeerShards (chunkId peerId : String) (shardCount : UInt64)
  | handlePeerDeath (deadPeerId : String)
  | unregisterChunk (chunkId : String)
deriving DecidableEq

/-- One call. -/
def replicationStep (m : ReplicationManager) : ReplicationCall → ReplicationManager
  | .registerChunk chunkId => m.registerChunk chunkId
  | .recordPeerShards chunkId peerId shardCount => m.recordPeerShards chunkId peerId shardCount
  | .handlePeerDeath deadPeerId => (m.handlePeerDeath deadPeerId).2
  | .unregisterChunk chunkId => m.unregisterChunk chunkId

/-- What a call does to one chunk, which may be untracked. -/
def chunkStep (defaultReplicas : UInt32) (c : String) (s : Option ReplicationState) :
    ReplicationCall → Option ReplicationState
  | .registerChunk chunkId => if chunkId = c then some (.new c defaultReplicas) else s
  | .recordPeerShards chunkId peerId shardCount =>
      if chunkId = c then s.map fun s => s.addReplica peerId shardCount else s
  | .handlePeerDeath deadPeerId => s.map fun s => (s.removePeer deadPeerId).2
  | .unregisterChunk chunkId => if chunkId = c then none else s

@[simp] theorem replicationStep_defaultReplicas (m : ReplicationManager)
    (call : ReplicationCall) : (replicationStep m call).defaultReplicas = m.defaultReplicas := by
  cases call with
  | recordPeerShards chunkId peerId shardCount =>
      rw [replicationStep, ReplicationManager.recordPeerShards]
      split <;> rfl
  | _ => rfl

/-- **Each chunk for itself**: what a call does to a chunk is what its own step does. -/
theorem lookup_replicationStep (m : ReplicationManager) (call : ReplicationCall) (c : String) :
    (replicationStep m call).states.lookup c =
      chunkStep m.defaultReplicas c (m.states.lookup c) call := by
  cases call with
  | registerChunk chunkId =>
      rw [replicationStep, ReplicationManager.registerChunk, chunkStep]
      by_cases hc : chunkId = c
      · subst hc
        simp
      · rw [if_neg hc, AList.lookup_insert_ne (Ne.symm hc)]
  | recordPeerShards chunkId peerId shardCount =>
      rw [replicationStep, ReplicationManager.recordPeerShards, chunkStep]
      by_cases hc : chunkId = c
      · subst hc
        cases hm : m.states.lookup chunkId with
        | none => simpa using hm
        | some s => simp
      · rw [if_neg hc]
        split
        · rw [AList.lookup_insert_ne (Ne.symm hc)]
        · rfl
  | handlePeerDeath deadPeerId => exact ValueMap.lookup_mapValues _ _ _
  | unregisterChunk chunkId =>
      rw [replicationStep, ReplicationManager.unregisterChunk, chunkStep]
      by_cases hc : chunkId = c
      · subst hc
        simp
      · rw [if_neg hc, AList.lookup_erase_ne (Ne.symm hc)]

/-! ### Recorded counts -/

/-- A chunk is tracked with the given count for a peer. -/
def Recorded (c p : String) (k : UInt64) (m : ReplicationManager) : Prop :=
  ∃ s, m.states.lookup c = some s ∧ s.currentReplicas.lookup p = some k

/-- A call that is not meant to change the count of a peer for a chunk. -/
def Unrelated (c p : String) (call : ReplicationCall) : Prop :=
  (∀ n, call ≠ .recordPeerShards c p n) ∧ call ≠ .handlePeerDeath p ∧ call ≠ .unregisterChunk c

/-- **The step**: of the calls not meant to change a count only the registration of the chunk
loses it, and none brings it back. -/
theorem recorded_step_iff {c p : String} {k : UInt64} {m : ReplicationManager}
    {call : ReplicationCall} (hcall : Unrelated c p call) :
    Recorded c p k (replicationStep m call) ↔ Recorded c p k m ∧ call ≠ .registerChunk c := by
  obtain ⟨hrecord, hdeath, hunregister⟩ := hcall
  rw [Recorded, lookup_replicationStep, Recorded]
  cases call with
  | registerChunk chunkId =>
      rw [chunkStep]
      by_cases hc : chunkId = c
      · simp [hc, ReplicationState.new]
      · simp [hc]
  | recordPeerShards chunkId peerId shardCount =>
      rw [chunkStep]
      by_cases hc : chunkId = c
      · have hp : p ≠ peerId := by
          rintro rfl
          exact hrecord shardCount (by rw [hc])
        simp [hc, ReplicationState.addReplica, AList.lookup_insert_ne hp]
      · simp [hc]
  | handlePeerDeath deadPeerId =>
      have hp : p ≠ deadPeerId := by
        rintro rfl
        exact hdeath rfl
      simp [chunkStep, ReplicationState.removePeer, AList.lookup_erase_ne hp]
  | unregisterChunk chunkId =>
      have hc : chunkId ≠ c := by
        rintro rfl
        exact hunregister rfl
      simp [chunkStep, hc]

theorem recorded_foldl_iff {c p : String} {k : UInt64} {calls : List ReplicationCall}
    (hcalls : ∀ call ∈ calls, Unrelated c p call) {m : ReplicationManager} :
    Recorded c p k (calls.foldl replicationStep m) ↔
      Recorded c p k m ∧ ∀ call ∈ calls, call ≠ .registerChunk c := by
  induction calls generalizing m with
  | nil => simp
  | cons call calls ih =>
      rw [List.forall_mem_cons] at hcalls
      rw [List.foldl_cons, ih hcalls.2, recorded_step_iff hcalls.1, List.forall_mem_cons, and_assoc]

/-- A count is recorded for a chunk that is tracked. -/
theorem recorded_recordPeerShards {m : ReplicationManager} {c : String}
    (htracked : c ∈ m.states) (p : String) (k : UInt64) :
    Recorded c p k (replicationStep m (.recordPeerShards c p k)) := by
  obtain ⟨s, hs⟩ := Option.isSome_iff_exists.mp (AList.lookup_isSome.mpr htracked)
  refine ⟨s.addReplica p k, ?_, ?_⟩
  · simp [lookup_replicationStep, chunkStep, hs]
  · simp [ReplicationState.addReplica]

/-- **Recorded replicas**: a count recorded for a tracked chunk is, after calls that neither
record another count for the peer and the chunk nor report the death of the peer nor unregister
the chunk, still there exactly when none of them registers the chunk again. -/
theorem replica_kept_iff (defaultReplicas : UInt32) (before after : List ReplicationCall)
    (c p : String) (k : UInt64)
    (htracked : c ∈ (before.foldl replicationStep (.new defaultReplicas)).states)
    (hafter : ∀ call ∈ after, (∀ n, call ≠ .recordPeerShards c p n) ∧
      call ≠ .handlePeerDeath p ∧ call ≠ .unregisterChunk c) :
    (∃ s, ((before ++ .recordPeerShards c p k :: after).foldl replicationStep
        (.new defaultReplicas)).states.lookup c = some s ∧
      s.currentReplicas.lookup p = some k) ↔
      ∀ call ∈ after, call ≠ .registerChunk c := by
  rw [List.foldl_append, List.foldl_cons]
  exact (recorded_foldl_iff hafter).trans
    (and_iff_right (recorded_recordPeerShards htracked p k))

/-- A count survives the death of another peer and the registration of another chunk. -/
theorem replica_kept :
    let before : List ReplicationCall := [.registerChunk "c"]
    let after : List ReplicationCall := [.handlePeerDeath "q", .registerChunk "d"]
    ∃ s, ((before ++ .recordPeerShards "c" "p" 3 :: after).foldl replicationStep
        (.new 3)).states.lookup "c" = some s ∧ s.currentReplicas.lookup "p" = some 3 :=
  (replica_kept_iff 3 _ _ "c" "p" 3 (by decide) (by simp)).mpr (by simp)

/-- It does not survive a second registration of its own chunk. -/
theorem replica_lost :
    let before : List ReplicationCall := [.registerChunk "c"]
    let after : List ReplicationCall := [.registerChunk "c"]
    ¬ ∃ s, ((before ++ .recordPeerShards "c" "p" 3 :: after).foldl replicationStep
        (.new 3)).states.lookup "c" = some s ∧ s.currentReplicas.lookup "p" = some 3 := by
  intro before after
  rintro ⟨s, hs, hp⟩
  obtain rfl : s = .new "c" 3 := by
    simpa [before, after, lookup_replicationStep, chunkStep, ReplicationManager.new] using hs.symm
  simp [ReplicationState.new] at hp

/-! ### The flag -/

/-- The sum of the counts as natural numbers. -/
def ReplicationState.recordedShards (s : ReplicationState) : ℕ :=
  ((ValueMap.values s.currentReplicas).map UInt64.toNat).sum

theorem foldl_add_toNat (counts : List UInt64) (start : UInt64) :
    (counts.foldl (· + ·) start).toNat =
      (start.toNat + (counts.map UInt64.toNat).sum) % 2 ^ 64 := by
  induction counts generalizing start with
  | nil => simp [Nat.mod_eq_of_lt start.toNat_lt]
  | cons n counts ih =>
      rw [List.foldl_cons, ih, UInt64.toNat_add, List.map_cons, List.sum_cons,
        Nat.mod_add_mod, Nat.add_assoc]

/-- The machine compares the target with the sum up to the range of `usize`. -/
theorem checkReplication_iff (s : ReplicationState) :
    s.checkReplication = true ↔ s.targetReplicas.toNat ≤ s.recordedShards % 2 ^ 64 := by
  have htotal : s.totalShards.toNat = s.recordedShards % 2 ^ 64 := by
    rw [ReplicationState.totalShards, foldl_add_toNat, UInt64.toNat_zero, Nat.zero_add]
    rfl
  rw [ReplicationState.checkReplication, decide_eq_true_eq, UInt64.le_iff_toNat_le, htotal,
    UInt32.toNat_toUInt64]

/-- What a call does to `refreshed`. -/
def refreshedStep (c : String) (b : Bool) : ReplicationCall → Bool
  | .registerChunk chunkId => if chunkId = c then false else b
  | .recordPeerShards chunkId _ _ => if chunkId = c then true else b
  | .handlePeerDeath _ => true
  | .unregisterChunk _ => b

/-- Whether the flag of a chunk was computed since the chunk was last registered. -/
def refreshed (calls : List ReplicationCall) (c : String) : Bool :=
  calls.foldl (refreshedStep c) false

theorem refreshed_concat (calls : List ReplicationCall) (call : ReplicationCall) (c : String) :
    refreshed (calls ++ [call]) c = refreshedStep c (refreshed calls c) call := by
  rw [refreshed, List.foldl_append]
  rfl

/-- The state kept for a chunk: it has the default target, and its flag was computed from its
counts, or it has no counts and the flag it was registered with. -/
structure Flagged (defaultReplicas : UInt32) (c : String) (fresh : Bool)
    (s : ReplicationState) : Prop where
  chunkId : s.chunkId = c
  target : s.targetReplicas = defaultReplicas
  flag : s.isComplete = (fresh && s.checkReplication)
  unused : fresh = false → s.currentReplicas = ∅

/-- **The step**: every call keeps each chunk flagged. -/
theorem Flagged.step {defaultReplicas : UInt32} {c : String} {fresh : Bool}
    {o : Option ReplicationState} (h : ∀ s, o = some s → Flagged defaultReplicas c fresh s)
    (call : ReplicationCall) (s : ReplicationState)
    (hs : chunkStep defaultReplicas c o call = some s) :
    Flagged defaultReplicas c (refreshedStep c fresh call) s := by
  cases call with
  | registerChunk chunkId =>
      rw [chunkStep] at hs
      rw [refreshedStep]
      split at hs
      · next hc =>
        obtain rfl := Option.some.inj hs
        rw [if_pos hc]
        exact ⟨rfl, rfl, rfl, fun _ => rfl⟩
      · next hc =>
        rw [if_neg hc]
        exact h s hs
  | recordPeerShards chunkId peerId shardCount =>
      rw [chunkStep] at hs
      rw [refreshedStep]
      split at hs
      · next hc =>
        obtain ⟨s, hbefore, rfl⟩ := Option.map_eq_some_iff.mp hs
        rw [if_pos hc]
        exact ⟨(h s hbefore).chunkId, (h s hbefore).target, rfl, by simp⟩
      · next hc =>
        rw [if_neg hc]
        exact h s hs
  | handlePeerDeath deadPeerId =>
      obtain ⟨s, hbefore, rfl⟩ := Option.map_eq_some_iff.mp hs
      exact ⟨(h s hbefore).chunkId, (h s hbefore).target, rfl, by simp [refreshedStep]⟩
  | unregisterChunk chunkId =>
      rw [chunkStep] at hs
      split at hs
      · cases hs
      · exact h s hs

/-- Every tracked chunk of a run is flagged. -/
theorem flagged_run (defaultReplicas : UInt32) (calls : List ReplicationCall) (c : String)
    (s : ReplicationState)
    (hs : (calls.foldl replicationStep (.new defaultReplicas)).states.lookup c = some s) :
    Flagged defaultReplicas c (refreshed calls c) s := by
  have hrun : (calls.foldl replicationStep (.new defaultReplicas)).defaultReplicas =
      defaultReplicas ∧
      ∀ s, (calls.foldl replicationStep (.new defaultReplicas)).states.lookup c = some s →
        Flagged defaultReplicas c (refreshed calls c) s := by
    refine Runs.history replicationStep (G := fun _ _ => True)
      (I := fun calls m => m.defaultReplicas = defaultReplicas ∧
        ∀ s, m.states.lookup c = some s → Flagged defaultReplicas c (refreshed calls c) s)
      (fun calls m call hm _ => ?_) ⟨rfl, by simp [ReplicationManager.new]⟩ fun _ _ => trivial
    obtain ⟨rfl, hflagged⟩ := hm
    refine ⟨replicationStep_defaultReplicas m call, fun s hs => ?_⟩
    rw [lookup_replicationStep] at hs
    rw [refreshed_concat]
    exact Flagged.step hflagged call s hs
  exact hrun.2 s hs

/-- The flag of a chunk tells whether its counts reach the target. -/
def FlagTrue (s : ReplicationState) : Prop :=
  s.isComplete = true ↔ s.targetReplicas.toNat ≤ s.recordedShards

/-- **One chunk**: when its flag tells the truth. -/
theorem Flagged.flagTrue_iff {defaultReplicas : UInt32} {c : String} {fresh : Bool}
    {s : ReplicationState} (h : Flagged defaultReplicas c fresh s) :
    FlagTrue s ↔ (defaultReplicas = 0 → fresh = true) ∧
      (s.targetReplicas.toNat ≤ s.recordedShards →
        s.targetReplicas.toNat ≤ s.recordedShards % 2 ^ 64) := by
  rw [FlagTrue, h.flag]
  cases fresh with
  | true =>
      have hmod : s.recordedShards % 2 ^ 64 ≤ s.recordedShards := Nat.mod_le ..
      rw [Bool.true_and, checkReplication_iff]
      constructor
      · exact fun htrue => ⟨fun _ => rfl, htrue.mpr⟩
      · exact fun hwrap => ⟨fun hle => Nat.le_trans hle hmod, hwrap.2⟩
  | false =>
      have hzero : s.recordedShards = 0 := by
        rw [ReplicationState.recordedShards, h.unused rfl]
        rfl
      have htarget : s.targetReplicas.toNat ≤ 0 ↔ defaultReplicas = 0 := by
        rw [h.target, Nat.le_zero, ← UInt32.toNat_zero, UInt32.toNat_inj]
      rw [hzero]
      simp [htarget]

/-- The completeness flags tell the truth about every tracked chunk, and the list of chunks
needing replication has the tracked chunks whose counts do not reach the target, once each. -/
def Truthful (m : ReplicationManager) : Prop :=
  (∀ c s, m.states.lookup c = some s →
      (m.isReplicated c = true ↔ s.targetReplicas.toNat ≤ s.recordedShards)) ∧
    (m.chunksNeedingReplication.map ReplicationState.chunkId).Nodup ∧
    ∀ c, c ∈ m.chunksNeedingReplication.map ReplicationState.chunkId ↔
      ∃ s, m.states.lookup c = some s ∧ ¬ s.targetReplicas.toNat ≤ s.recordedShards

/-- The chunks of a run that need replication are those whose flag is not set. -/
theorem mem_chunksNeedingReplication {m : ReplicationManager}
    (hkey : ∀ c s, m.states.lookup c = some s → s.chunkId = c) :
    (m.chunksNeedingReplication.map ReplicationState.chunkId).Nodup ∧
      ∀ c, c ∈ m.chunksNeedingReplication.map ReplicationState.chunkId ↔
        ∃ s, m.states.lookup c = some s ∧ s.isComplete = false := by
  constructor
  · have hkeys := ValueMap.map_values hkey
    exact (hkeys ▸ m.states.keys_nodup).sublist (List.filter_sublist.map ReplicationState.chunkId)
  · intro c
    rw [List.mem_map]
    constructor
    · rintro ⟨s, hs, rfl⟩
      obtain ⟨hvalue, hflag⟩ := List.mem_filter.mp hs
      obtain ⟨k, hk⟩ := ValueMap.mem_values_iff.mp hvalue
      obtain rfl := hkey k s hk
      exact ⟨s, hk, by simpa using hflag⟩
    · rintro ⟨s, hs, hflag⟩
      exact ⟨s, List.mem_filter.mpr ⟨ValueMap.mem_values_iff.mpr ⟨c, hs⟩, by simp [hflag]⟩,
        hkey c s hs⟩

/-- **The completeness flag**: after every run, the flags and the list tell the truth exactly
when every tracked chunk, if the default target is zero, had its flag computed since it was
registered, and no sum of counts that reaches a target falls below it by wrapping around. -/
theorem truthful_iff (defaultReplicas : UInt32) (calls : List ReplicationCall) :
    let m := calls.foldl replicationStep (.new defaultReplicas)
    Truthful m ↔ ∀ c s, m.states.lookup c = some s →
      (defaultReplicas = 0 → refreshed calls c = true) ∧
        (s.targetReplicas.toNat ≤ s.recordedShards →
          s.targetReplicas.toNat ≤ s.recordedShards % 2 ^ 64) := by
  intro m
  have hflagged := flagged_run defaultReplicas calls
  have hflag : ∀ c s, m.states.lookup c = some s → m.isReplicated c = s.isComplete := by
    intro c s hs
    rw [ReplicationManager.isReplicated, hs]
    rfl
  obtain ⟨hnodup, hmem⟩ :=
    mem_chunksNeedingReplication (m := m) fun c s hs => (hflagged c s hs).chunkId
  constructor
  · rintro ⟨htrue, -⟩ c s hs
    have hc := htrue c s hs
    rw [hflag c s hs] at hc
    exact (hflagged c s hs).flagTrue_iff.mp hc
  · intro hall
    have htrue : ∀ c s, m.states.lookup c = some s → FlagTrue s := fun c s hs =>
      (hflagged c s hs).flagTrue_iff.mpr (hall c s hs)
    refine ⟨fun c s hs => ?_, hnodup, fun c => ?_⟩
    · rw [hflag c s hs]
      exact htrue c s hs
    · rw [hmem]
      refine exists_congr fun s => and_congr_right fun hs => ?_
      rw [← Bool.not_eq_true]
      exact not_congr (htrue c s hs)

/-- With a target of zero a chunk that was just registered is flagged as incomplete. -/
theorem zero_target_incomplete :
    ¬ Truthful ([ReplicationCall.registerChunk "c"].foldl replicationStep (.new 0)) := by
  rintro ⟨htrue, -⟩
  have hflag := htrue "c" (.new "c" 0) (by simp [lookup_replicationStep, chunkStep,
    ReplicationManager.new])
  exact absurd (hflag.mpr (by decide)) (by decide)

end VaultKeeper
