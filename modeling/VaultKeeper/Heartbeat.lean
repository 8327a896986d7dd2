import Mathlib.Algebra.Order.Ring.Nat
import VaultKeeper.Runs
import VaultKeeper.ValueMap

/-!
# Heartbeats

`p2p/src/heartbeat.rs`: what a node knows of its peers, from the heartbeats that arrive and
from a periodic check. The monotonic clock is an argument, in nanoseconds, and a duration
since a later time is zero. Counters are `u32` and wrap around.

What the calls do to one peer depends on this peer alone (`peerStep`), so every property of
runs is proved for one peer and read off the manager by `lookup_heartbeatStep`.

## Main results

* `lookup_heartbeatStep`: a call acts on each peer for itself.
* `emitted_filter`: the events about a peer are those of its own step.
* `tick_cases`, `hear_cases`: what the periodic check and a heartbeat do to a peer.
-/

namespace VaultKeeper

/-- Peer health status. -/
inductive PeerStatus
  | alive
  | suspect
  | dead
deriving DecidableEq

/-- Peer state tracked by heartbeat. -/
structure PeerState where
  peerId : String
  status : PeerStatus
  lastSeen : ℕ
  availableSpaceBytes : UInt64
  missedHeartbeats : UInt32
  consecutiveFailures : UInt32
deriving DecidableEq

/-- Configuration for heartbeat. -/
structure HeartbeatConfig where
  intervalSecs : UInt64
  maxMissed : UInt32
  suspectThreshold : UInt32

/-- Events emitted by the heartbeat manager. -/
inductive PeerEvent
  | peerAlive (peerId : String)
  | peerSuspect (peerId : String)
  | peerDied (peerId : String)
  | peerRecovered (peerId : String)
deriving DecidableEq

/-- The peer an event is about. -/
def PeerEvent.peerId : PeerEvent → String
  | .peerAlive p => p
  | .peerSuspect p => p
  | .peerDied p => p
  | .peerRecovered p => p

/-- The default: an interval of 15 minutes. -/
def HeartbeatConfig.default : HeartbeatConfig where
  intervalSecs := 900
  maxMissed := 3
  suspectThreshold := 1

/-- The interval in nanoseconds. -/
def HeartbeatConfig.interval (config : HeartbeatConfig) : ℕ :=
  10 ^ 9 * config.intervalSecs.toNat

namespace PeerState

def new (peerId : String) (now : ℕ) : PeerState where
  peerId := peerId
  status := .alive
  lastSeen := now
  availableSpaceBytes := 0
  missedHeartbeats := 0
  consecutiveFailures := 0

/-- What a heartbeat does to the state of the peer it comes from. The misses are forgotten
when the peer recovers, and only then. -/
def hear (s : PeerState) (now : ℕ) (nodeId : String) (availableSpace : UInt64) :
    PeerEvent × PeerState :=
  let s := { s with
    lastSeen := now, availableSpaceBytes := availableSpace, consecutiveFailures := 0 }
  match s.status with
  | .dead | .suspect => (.peerRecovered nodeId, { s with status := .alive, missedHeartbeats := 0 })
  | .alive => (.peerAlive nodeId, s)

/-- Whether a peer has been silent for longer than the interval. -/
def Overdue (config : HeartbeatConfig) (now : ℕ) (s : PeerState) : Prop :=
  config.interval < now - s.lastSeen

instance (config : HeartbeatConfig) (now : ℕ) (s : PeerState) : Decidable (s.Overdue config now) :=
  inferInstanceAs (Decidable (_ < _))

theorem overdue_iff {config : HeartbeatConfig} {now : ℕ} {s : PeerState} :
    s.Overdue config now ↔ config.interval < now - s.lastSeen := Iff.rfl

/-- What the periodic check does to the state of a peer. -/
def tick (config : HeartbeatConfig) (now : ℕ) (s : PeerState) : Option PeerEvent × PeerState :=
  if s.Overdue config now then
    let s := { s with missedHeartbeats := s.missedHeartbeats + 1 }
    match s.status with
    | .alive =>
        if config.suspectThreshold ≤ s.missedHeartbeats then
          (some (.peerSuspect s.peerId), { s with status := .suspect })
        else (none, s)
    | .suspect =>
        if config.maxMissed ≤ s.missedHeartbeats then
          (some (.peerDied s.peerId), { s with status := .dead })
        else (none, s)
    | .dead => (none, { s with consecutiveFailures := s.consecutiveFailures + 1 })
  else (none, s)

end PeerState

/-- Heartbeat manager. -/
structure HeartbeatManager where
  config : HeartbeatConfig
  peers : AList fun _ : String => PeerState
  nodeId : String

namespace HeartbeatManager

def new (nodeId : String) (config : HeartbeatConfig) : HeartbeatManager where
  config := config
  peers := ∅
  nodeId := nodeId

/-- Process an incoming heartbeat message. -/
def processHeartbeat (m : HeartbeatManager) (now : ℕ) (nodeId : String) (_timestamp : UInt64)
    (availableSpace : UInt64) : PeerEvent × HeartbeatManager :=
  let peer := (m.peers.lookup nodeId).getD (.new nodeId now)
  let (event, peer) := peer.hear now nodeId availableSpace
  (event, { m with peers := m.peers.insert nodeId peer })

/-- Mark the peers that have missed a heartbeat. -/
def tick (m : HeartbeatManager) (now : ℕ) : List PeerEvent × HeartbeatManager :=
  ((ValueMap.values m.peers).filterMap fun s => (s.tick m.config now).1,
    { m with peers := ValueMap.mapValues (fun s => (s.tick m.config now).2) m.peers })

/-- Get all dead peers that need data replication. -/
def getDeadPeers (m : HeartbeatManager) : List PeerState :=
  (ValueMap.values m.peers).filter (·.status = .dead)

/-- Get alive peers count. -/
def aliveCount (m : HeartbeatManager) : ℕ :=
  ((ValueMap.values m.peers).filter (·.status = .alive)).length

/-- Register a peer. A peer that is known stays as it is. -/
def registerPeer (m : HeartbeatManager) (now : ℕ) (peerId : String) : HeartbeatManager :=
  match m.peers.lookup peerId with
  | some _ => m
  | none => { m with peers := m.peers.insert peerId (.new peerId now) }

end HeartbeatManager

/-! ### Runs -/

/-- A call on a manager, with the time of the clock. -/
inductive HeartbeatCall
  | registerPeer (now : ℕ) (peerId : String)
  | processHeartbeat (now : ℕ) (nodeId : String) (timestamp availableSpace : UInt64)
  | tick (now : ℕ)

/-- One call. -/
def heartbeatStep (m : HeartbeatManager) : HeartbeatCall → HeartbeatManager
  | .registerPeer now peerId => m.registerPeer now peerId
  | .processHeartbeat now nodeId timestamp availableSpace =>
      (m.processHeartbeat now nodeId timestamp availableSpace).2
  | .tick now => (m.tick now).2

/-- The events a call emits. -/
def emitted (m : HeartbeatManager) : HeartbeatCall → List PeerEvent
  | .registerPeer .. => []
  | .processHeartbeat now nodeId timestamp availableSpace =>
      [(m.processHeartbeat now nodeId timestamp availableSpace).1]
  | .tick now => (m.tick now).1

/-- What a call does to one peer, which may be unknown, and the event about this peer. -/
def peerStep (config : HeartbeatConfig) (p : String) (s : Option PeerState) :
    HeartbeatCall → Option PeerEvent × Option PeerState
  | .registerPeer now peerId =>
      (none, if peerId = p then some (s.getD (.new p now)) else s)
  | .processHeartbeat now nodeId _ availableSpace =>
      if nodeId = p then
        let (event, s) := (s.getD (.new p now)).hear now p availableSpace
        (some event, some s)
      else (none, s)
  | .tick now => (s.bind fun s => (s.tick config now).1, s.map fun s => (s.tick config now).2)

@[simp] theorem heartbeatStep_config (m : HeartbeatManager) (call : HeartbeatCall) :
    (heartbeatStep m call).config = m.config := by
  cases call with
  | registerPeer now peerId =>
      rw [heartbeatStep, HeartbeatManager.registerPeer]
      split <;> rfl
  | processHeartbeat now nodeId timestamp availableSpace => rfl
  | tick now => rfl

/-- **Each peer for itself**: what a call does to a peer is what its own step does. -/
theorem lookup_heartbeatStep (m : HeartbeatManager) (call : HeartbeatCall) (p : String) :
    (heartbeatStep m call).peers.lookup p =
      (peerStep m.config p (m.peers.lookup p) call).2 := by
  cases call with
  | registerPeer now peerId =>
      rw [heartbeatStep, HeartbeatManager.registerPeer, peerStep]
      by_cases hp : peerId = p
      · subst hp
        cases hm : m.peers.lookup peerId with
        | none => simp
        | some s => simp [hm]
      · rw [if_neg hp]
        split
        · rfl
        · rw [AList.lookup_insert_ne (Ne.symm hp)]
  | processHeartbeat now nodeId timestamp availableSpace =>
      simp only [heartbeatStep, HeartbeatManager.processHeartbeat, peerStep]
      by_cases hp : nodeId = p
      · subst hp
        simp
      · rw [if_neg hp, AList.lookup_insert_ne (Ne.symm hp)]
  | tick now => exact ValueMap.lookup_mapValues _ _ _

/-! ### What the steps do -/

/-- **A check**: it does nothing to a peer that is not overdue; one that is overdue misses a
heartbeat and, when the misses reach the threshold of its status, becomes suspect or dead. -/
theorem tick_cases (config : HeartbeatConfig) (now : ℕ) (s : PeerState) :
    ¬ s.Overdue config now ∧ s.tick config now = (none, s) ∨
      s.Overdue config now ∧ ∃ event status failures,
        s.tick config now = (event,
          { s with
            status := status
            missedHeartbeats := s.missedHeartbeats + 1
            consecutiveFailures := failures }) ∧
        (event = none ∧ status = s.status ∨
          event = some (.peerSuspect s.peerId) ∧ s.status = .alive ∧ status = .suspect ∧
            config.suspectThreshold ≤ s.missedHeartbeats + 1 ∨
          event = some (.peerDied s.peerId) ∧ s.status = .suspect ∧ status = .dead ∧
            config.maxMissed ≤ s.missedHeartbeats + 1) := by
  by_cases hover : s.Overdue config now
  · refine Or.inr ⟨hover, ?_⟩
    rw [PeerState.tick, if_pos hover]
    cases hstatus : s.status with
    | alive =>
        by_cases hmisses : config.suspectThreshold ≤ s.missedHeartbeats + 1
        · exact ⟨_, _, s.consecutiveFailures, if_pos hmisses, by simp [hmisses]⟩
        · exact ⟨none, .alive, s.consecutiveFailures, by simp [hmisses], by simp⟩
    | suspect =>
        by_cases hmisses : config.maxMissed ≤ s.missedHeartbeats + 1
        · exact ⟨_, _, s.consecutiveFailures, if_pos hmisses, by simp [hmisses]⟩
        · exact ⟨none, .suspect, s.consecutiveFailures, by simp [hmisses], by simp⟩
    | dead => exact ⟨none, .dead, s.consecutiveFailures + 1, by simp, by simp⟩
  · exact Or.inl ⟨hover, if_neg hover⟩

/-- **A heartbeat**: a peer that is alive stays so, with its misses; any other recovers. -/
theorem hear_cases (s : PeerState) (now : ℕ) (nodeId : String) (availableSpace : UInt64) :
    ∃ event missed, s.hear now nodeId availableSpace = (event,
        { s with
          status := .alive
          lastSeen := now
          availableSpaceBytes := availableSpace
          missedHeartbeats := missed
          consecutiveFailures := 0 }) ∧
      (s.status = .alive ∧ event = .peerAlive nodeId ∧ missed = s.missedHeartbeats ∨
        s.status ≠ .alive ∧ event = .peerRecovered nodeId ∧ missed = 0) := by
  cases hstatus : s.status with
  | alive =>
      exact ⟨.peerAlive nodeId, s.missedHeartbeats, by simp [PeerState.hear, hstatus], by simp⟩
  | suspect => exact ⟨.peerRecovered nodeId, 0, by simp [PeerState.hear, hstatus], by simp⟩
  | dead => exact ⟨.peerRecovered nodeId, 0, by simp [PeerState.hear, hstatus], by simp⟩

/-- Every peer is kept under its own id. -/
def Keyed (m : HeartbeatManager) : Prop :=
  ∀ p s, m.peers.lookup p = some s → s.peerId = p

theorem new_keyed (nodeId : String) (config : HeartbeatConfig) : Keyed (.new nodeId config) := by
  intro p s hs
  simp [HeartbeatManager.new] at hs

theorem Keyed.step {m : HeartbeatManager} (hm : Keyed m) (call : HeartbeatCall) :
    Keyed (heartbeatStep m call) := by
  intro p s hs
  have hnew : ∀ now, ((m.peers.lookup p).getD (.new p now)).peerId = p := by
    intro now
    cases hp : m.peers.lookup p with
    | none => rfl
    | some s => exact hm p s hp
  rw [lookup_heartbeatStep] at hs
  cases call with
  | registerPeer now peerId =>
      rw [peerStep] at hs
      split at hs
      · obtain rfl := Option.some.inj hs
        exact hnew now
      · exact hm p s hs
  | processHeartbeat now nodeId timestamp availableSpace =>
      rw [peerStep] at hs
      split at hs
      · obtain ⟨event, missed, hhear, -⟩ :=
          hear_cases ((m.peers.lookup p).getD (.new p now)) now p availableSpace
        rw [hhear] at hs
        obtain rfl := Option.some.inj hs
        exact hnew now
      · exact hm p s hs
  | tick now =>
      obtain ⟨s', hs', rfl⟩ := Option.map_eq_some_iff.mp hs
      rcases tick_cases m.config now s' with ⟨-, htick⟩ | ⟨-, _, _, _, htick, -⟩
      · rw [htick]
        exact hm p s' hs'
      · rw [htick]
        exact hm p s' hs'

/-- **The events of a call**: those about a peer are what its own step emits. -/
theorem emitted_filter {m : HeartbeatManager} (hm : Keyed m) (call : HeartbeatCall) (p : String) :
    (emitted m call).filter (·.peerId = p) =
      (peerStep m.config p (m.peers.lookup p) call).1.toList := by
  cases call with
  | registerPeer now peerId => rfl
  | processHeartbeat now nodeId timestamp availableSpace =>
      obtain ⟨event, missed, hhear, hevent⟩ :=
        hear_cases ((m.peers.lookup nodeId).getD (.new nodeId now)) now nodeId availableSpace
      have hpeer : event.peerId = nodeId := by
        rcases hevent with ⟨-, rfl, -⟩ | ⟨-, rfl, -⟩ <;> rfl
      simp only [emitted, HeartbeatManager.processHeartbeat, peerStep, hhear]
      by_cases hp : nodeId = p
      · subst hp
        simp [hhear, hpeer]
      · simp [hpeer, hp]
  | tick now =>
      refine ValueMap.filter_filterMap_values _ _ _ (fun k s event hs hevent => ?_) p
      rcases tick_cases m.config now s with ⟨-, htick⟩ | ⟨-, _, _, _, htick, hcase⟩
      · simp [htick] at hevent
      · rw [htick] at hevent
        rw [← hm k s hs]
        rcases hcase with ⟨rfl, -⟩ | ⟨rfl, -⟩ | ⟨rfl, -⟩
        · cases hevent
        · obtain rfl := Option.some.inj hevent
          rfl
        · obtain rfl := Option.some.inj hevent
          rfl

/-- An event is emitted when the step of its peer emits it. -/
theorem mem_emitted_iff {m : HeartbeatManager} (hm : Keyed m) (call : HeartbeatCall)
    (event : PeerEvent) :
    event ∈ emitted m call ↔
      (peerStep m.config event.peerId (m.peers.lookup event.peerId) call).1 = some event := by
  have hmem : event ∈ (emitted m call).filter (·.peerId = event.peerId) ↔
      event ∈ emitted m call := by
    simp [List.mem_filter]
  rw [← hmem, emitted_filter hm, Option.mem_toList]

/-- What a check emits: its peer is overdue, and becomes suspect or dead with enough misses. -/
theorem of_mem_tick {m : HeartbeatManager} (hm : Keyed m) {now : ℕ} {event : PeerEvent}
    (h : event ∈ (m.tick now).1) :
    ∃ s, m.peers.lookup event.peerId = some s ∧ s.Overdue m.config now ∧
      (event = .peerSuspect event.peerId ∧ s.status = .alive ∧
          m.config.suspectThreshold ≤ s.missedHeartbeats + 1 ∨
        event = .peerDied event.peerId ∧ s.status = .suspect ∧
          m.config.maxMissed ≤ s.missedHeartbeats + 1) := by
  have hstep := (mem_emitted_iff hm (.tick now) event).mp h
  obtain ⟨s, hs, hevent⟩ := Option.bind_eq_some_iff.mp hstep
  refine ⟨s, hs, ?_⟩
  have hpeer := hm event.peerId s hs
  rcases tick_cases m.config now s with ⟨-, htick⟩ | ⟨hover, _, _, _, htick, hcase⟩
  · simp [htick] at hevent
  · rw [htick] at hevent
    refine ⟨hover, ?_⟩
    rcases hcase with ⟨rfl, -⟩ | ⟨rfl, halive, -, hle⟩ | ⟨rfl, hsuspect, -, hle⟩
    · cases hevent
    · exact Or.inl ⟨hpeer ▸ (Option.some.inj hevent).symm, halive, hle⟩
    · exact Or.inr ⟨hpeer ▸ (Option.some.inj hevent).symm, hsuspect, hle⟩

end VaultKeeper
