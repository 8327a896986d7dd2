import Mathlib.Data.Finset.Card
import VaultKeeper.Silence

/-!
# The Liveness Events

The events that `p2p/src/heartbeat.rs` emits in a run, from heartbeats and from checks. The
last of the events of a peer that tell a change (all but `peerAlive`) tells its status, which
is what the consumers of the events rely on.

## Main results

* `StatusTold.step`: the status of a peer is the one its last change tells.
* `event_stream_well_formed`: the order of the events, and what the readings of the manager
  say about them.
-/

namespace VaultKeeper

/-- The events of a run, in order. -/
def eventsOf (m : HeartbeatManager) (calls : List HeartbeatCall) : List PeerEvent :=
  (Runs.visits heartbeatStep m calls).flatMap fun v => emitted v.1 v.2

theorem eventsOf_concat (m : HeartbeatManager) (calls : List HeartbeatCall)
    (call : HeartbeatCall) :
    eventsOf m (calls ++ [call]) =
      eventsOf m calls ++ emitted (calls.foldl heartbeatStep m) call := by
  rw [eventsOf, Runs.visits_concat, List.flatMap_append, List.flatMap_singleton]
  rfl

/-- The last event that tells a change of a peer. -/
def lastChange (p : String) (events : List PeerEvent) : Option PeerEvent :=
  ((events.filter (·.peerId = p)).filter (· ≠ .peerAlive p)).getLast?

/-- The status a last change tells. -/
def statusTold : Option PeerEvent → PeerStatus
  | some (.peerSuspect _) => .suspect
  | some (.peerDied _) => .dead
  | _ => .alive

/-- The peers a run has named. -/
def HeartbeatCall.peer? : HeartbeatCall → Option String
  | .registerPeer _ peerId => some peerId
  | .processHeartbeat _ nodeId _ _ => some nodeId
  | .tick _ => none

def knownPeers (calls : List HeartbeatCall) : Finset String :=
  (calls.filterMap HeartbeatCall.peer?).toFinset

/-! ### The last change -/

theorem lastChange_eq_some {p : String} {events : List PeerEvent} {event : PeerEvent}
    (h : lastChange p events = some event) :
    event = .peerSuspect p ∨ event = .peerDied p ∨ event = .peerRecovered p := by
  have hmem := List.mem_of_getLast? h
  simp only [List.mem_filter, decide_eq_true_eq, ne_eq] at hmem
  obtain ⟨⟨-, rfl⟩, hne⟩ := hmem
  cases event with
  | peerAlive p => exact absurd rfl hne
  | peerSuspect p => exact Or.inl rfl
  | peerDied p => exact Or.inr (Or.inl rfl)
  | peerRecovered p => exact Or.inr (Or.inr rfl)

/-- The last changes that tell a status. -/
def changesTo (p : String) : PeerStatus → List (Option PeerEvent)
  | .alive => [none, some (.peerRecovered p)]
  | .suspect => [some (.peerSuspect p)]
  | .dead => [some (.peerDied p)]

theorem statusTold_eq_iff {p : String} {events : List PeerEvent} {status : PeerStatus} :
    statusTold (lastChange p events) = status ↔ lastChange p events ∈ changesTo p status := by
  cases h : lastChange p events with
  | none => cases status <;> simp [statusTold, changesTo]
  | some event =>
      rcases lastChange_eq_some h with rfl | rfl | rfl <;>
        cases status <;> simp [statusTold, changesTo]

/-- A call whose only event about the peer is the given one, if any, changes the last change
to it, unless it says that the peer is alive. -/
theorem lastChange_append {p : String} {events new : List PeerEvent} {event : Option PeerEvent}
    (h : new.filter (·.peerId = p) = event.toList) :
    lastChange p (events ++ new) =
      if event = none ∨ event = some (.peerAlive p) then lastChange p events else event := by
  rw [lastChange, List.filter_append, h, List.filter_append, lastChange]
  cases event with
  | none => simp
  | some event =>
      by_cases halive : event = .peerAlive p
      · simp [halive]
      · simp [halive]

/-! ### The invariant -/

/-- A peer that is known has the status its last change tells; another has no change. -/
def StatusTold (s : Option PeerState) (last : Option PeerEvent) : Prop :=
  match s with
  | none => last = none
  | some s => s.status = statusTold last

/-- **The step** of one peer: what is known of it, and which event it emits, keep its status
told, and an event that tells a change follows only the changes it may follow. -/
theorem StatusTold.step {config : HeartbeatConfig} {p : String} {s : Option PeerState}
    {last : Option PeerEvent} (h : StatusTold s last) (hkey : ∀ s' ∈ s, s'.peerId = p)
    (call : HeartbeatCall) :
    let event := (peerStep config p s call).1
    StatusTold (peerStep config p s call).2
      (if event = none ∨ event = some (.peerAlive p) then last else event) := by
  intro event
  cases call with
  | registerPeer now peerId =>
      simp only [event, peerStep, true_or, if_true]
      split
      · cases s with
        | none =>
            obtain rfl : last = none := h
            rfl
        | some s => exact h
      · exact h
  | processHeartbeat now nodeId timestamp availableSpace =>
      simp only [event, peerStep]
      split
      · obtain ⟨e, missed, hhear, hcase⟩ := hear_cases (s.getD (.new p now)) now p availableSpace
        rw [hhear]
        rcases hcase with ⟨halive, rfl, -⟩ | ⟨-, rfl, -⟩
        · cases s with
          | none =>
              obtain rfl : last = none := h
              simp [StatusTold, statusTold]
          | some s =>
              have hlast : s.status = statusTold last := h
              simpa [StatusTold, ← hlast] using halive.symm
        · simp [StatusTold, statusTold]
      · simpa using h
  | tick now =>
      simp only [event, peerStep]
      cases s with
      | none => simpa using h
      | some s =>
          have hp : s.peerId = p := hkey s rfl
          have hlast : s.status = statusTold last := h
          rcases tick_cases config now s with ⟨-, htick⟩ | ⟨-, _, _, _, htick, hcase⟩
          · simpa [StatusTold, htick] using hlast
          · rcases hcase with ⟨rfl, rfl⟩ | ⟨rfl, -, rfl, -⟩ | ⟨rfl, -, rfl, -⟩
            · simpa [StatusTold, htick] using hlast
            · simp [StatusTold, htick, statusTold]
            · simp [StatusTold, htick, statusTold]

/-- In every run the status of every peer is told by its last change. -/
theorem statusTold_run (nodeId : String) (config : HeartbeatConfig) (calls : List HeartbeatCall)
    (p : String) :
    StatusTold ((calls.foldl heartbeatStep (.new nodeId config)).peers.lookup p)
      (lastChange p (eventsOf (.new nodeId config) calls)) := by
  induction calls using List.reverseRecOn with
  | nil => rfl
  | append_singleton calls call ih =>
      obtain ⟨-, hkeyed, -⟩ := heardAs_run nodeId config calls
      rw [eventsOf_concat, lastChange_append (emitted_filter hkeyed call p), List.foldl_append,
        List.foldl_cons, List.foldl_nil, lookup_heartbeatStep]
      exact ih.step (hkeyed p) call

/-! ### Events and readings -/

/-- What is emitted outside of a check comes from a heartbeat, and a recovery from the heartbeat
of a peer that was not alive. -/
theorem of_mem_emitted {m : HeartbeatManager} {call : HeartbeatCall} {event : PeerEvent}
    (h : event ∈ emitted m call) :
    (∃ now, call = .tick now) ∨ event = .peerAlive event.peerId ∨
      event = .peerRecovered event.peerId ∧
        ∃ s, m.peers.lookup event.peerId = some s ∧ s.status ≠ .alive := by
  cases call with
  | registerPeer now peerId => simp [emitted] at h
  | processHeartbeat now nodeId timestamp availableSpace =>
      obtain ⟨e, missed, hhear, hcase⟩ :=
        hear_cases ((m.peers.lookup nodeId).getD (.new nodeId now)) now nodeId availableSpace
      obtain rfl : event = e := by
        simpa [emitted, HeartbeatManager.processHeartbeat, hhear] using h
      rcases hcase with ⟨-, rfl, -⟩ | ⟨hstatus, rfl, -⟩
      · exact Or.inr (Or.inl rfl)
      · refine Or.inr (Or.inr ⟨rfl, ?_⟩)
        cases hs : m.peers.lookup nodeId with
        | none =>
            rw [hs] at hstatus
            exact absurd rfl hstatus
        | some s =>
            rw [hs] at hstatus
            exact ⟨s, hs, hstatus⟩
  | tick now => exact Or.inl ⟨now, rfl⟩

/-- The peers of a status, once each. -/
theorem peersOf_status {m : HeartbeatManager} (hm : Keyed m) (status : PeerStatus) :
    let ids := ((ValueMap.values m.peers).filter (·.status = status)).map PeerState.peerId
    ids.Nodup ∧ ∀ p, p ∈ ids ↔ ∃ s, m.peers.lookup p = some s ∧ s.status = status := by
  intro ids
  constructor
  · have hkeys := ValueMap.map_values hm
    exact (hkeys ▸ m.peers.keys_nodup).sublist (List.filter_sublist.map PeerState.peerId)
  · intro p
    rw [List.mem_map]
    constructor
    · rintro ⟨s, hs, rfl⟩
      obtain ⟨hvalue, hstatus⟩ := List.mem_filter.mp hs
      obtain ⟨k, hk⟩ := ValueMap.mem_values_iff.mp hvalue
      obtain rfl := hm k s hk
      exact ⟨s, hk, by simpa using hstatus⟩
    · rintro ⟨s, hs, hstatus⟩
      refine ⟨s, List.mem_filter.mpr ⟨ValueMap.mem_values_iff.mpr ⟨p, hs⟩, by simp [hstatus]⟩,
        hm p s hs⟩

/-- The known peers are those that have a silence. -/
theorem mem_knownPeers_iff (config : HeartbeatConfig) (calls : List HeartbeatCall) (p : String) :
    p ∈ knownPeers calls ↔ ∃ q, silence config calls p = some q := by
  induction calls using List.reverseRecOn with
  | nil => simp [knownPeers, silence]
  | append_singleton calls call ih =>
      have hmem : p ∈ knownPeers (calls ++ [call]) ↔
          p ∈ knownPeers calls ∨ call.peer? = some p := by
        simp [knownPeers, List.filterMap_append, List.mem_filterMap]
      rw [hmem, ih, silence_concat]
      cases call with
      | registerPeer now peerId =>
          rw [silenceStep]
          by_cases hp : peerId = p <;> simp [HeartbeatCall.peer?, hp]
      | processHeartbeat now nodeId timestamp availableSpace =>
          rw [silenceStep]
          by_cases hp : nodeId = p <;> simp [HeartbeatCall.peer?, hp]
      | tick now => simp [HeartbeatCall.peer?, silenceStep]

section

variable (nodeId : String) (config : HeartbeatConfig) (calls : List HeartbeatCall)

/-- A peer with a status has the last change that tells it. -/
theorem status_told {p : String} {s : PeerState}
    (hs : (calls.foldl heartbeatStep (.new nodeId config)).peers.lookup p = some s) :
    s.status = statusTold (lastChange p (eventsOf (.new nodeId config) calls)) := by
  have hrun := statusTold_run nodeId config calls p
  rw [hs] at hrun
  exact hrun

/-- Only checks emit a suspicion or a death. -/
theorem tick_of_suspect_or_died {m : HeartbeatManager} {call : HeartbeatCall} {p : String}
    (h : .peerSuspect p ∈ emitted m call ∨ .peerDied p ∈ emitted m call) :
    ∃ now, call = .tick now := by
  rcases h with hmem | hmem
  · rcases of_mem_emitted hmem with htick | halive | ⟨hrecovered, -⟩
    · exact htick
    · cases halive
    · cases hrecovered
  · rcases of_mem_emitted hmem with htick | halive | ⟨hrecovered, -⟩
    · exact htick
    · cases halive
    · cases hrecovered

/-- Only a peer that is alive becomes suspect. -/
theorem of_suspect {call : HeartbeatCall} {p : String}
    (hmem : .peerSuspect p ∈ emitted (calls.foldl heartbeatStep (.new nodeId config)) call) :
    statusTold (lastChange p (eventsOf (.new nodeId config) calls)) = .alive := by
  obtain ⟨-, hkeyed, -⟩ := heardAs_run nodeId config calls
  obtain ⟨now, rfl⟩ := tick_of_suspect_or_died (Or.inl hmem)
  obtain ⟨s, hs, -, ⟨-, hstatus, -⟩ | ⟨hdied, -⟩⟩ := of_mem_tick hkeyed hmem
  · rw [← status_told nodeId config calls (p := p) hs]
    exact hstatus
  · cases hdied

/-- Only a peer that is suspect dies. -/
theorem of_died {call : HeartbeatCall} {p : String}
    (hmem : .peerDied p ∈ emitted (calls.foldl heartbeatStep (.new nodeId config)) call) :
    statusTold (lastChange p (eventsOf (.new nodeId config) calls)) = .suspect := by
  obtain ⟨-, hkeyed, -⟩ := heardAs_run nodeId config calls
  obtain ⟨now, rfl⟩ := tick_of_suspect_or_died (Or.inr hmem)
  obtain ⟨s, hs, -, ⟨hsuspect, -⟩ | ⟨-, hstatus, -⟩⟩ := of_mem_tick hkeyed hmem
  · cases hsuspect
  · rw [← status_told nodeId config calls (p := p) hs]
    exact hstatus

/-- Only a peer that is not alive recovers. -/
theorem of_recovered {call : HeartbeatCall} {p : String}
    (hmem : .peerRecovered p ∈ emitted (calls.foldl heartbeatStep (.new nodeId config)) call) :
    statusTold (lastChange p (eventsOf (.new nodeId config) calls)) ≠ .alive := by
  obtain ⟨-, hkeyed, -⟩ := heardAs_run nodeId config calls
  rcases of_mem_emitted hmem with ⟨now, rfl⟩ | halive | ⟨-, s, hs, hstatus⟩
  · obtain ⟨s, hs, -, ⟨hsuspect, -⟩ | ⟨hdied, -⟩⟩ := of_mem_tick hkeyed hmem
    · cases hsuspect
    · cases hdied
  · cases halive
  · rw [← status_told nodeId config calls (p := p) hs]
    exact hstatus

/-- A check emits nothing about a peer heard from within the interval. -/
theorem not_mem_tick_of_recent {now : ℕ} {p : String} {q : Silence}
    (hq : silence config calls p = some q) (hrecent : now - q.heard ≤ config.interval) :
    ∀ event ∈ ((calls.foldl heartbeatStep (.new nodeId config)).tick now).1, event.peerId ≠ p := by
  obtain ⟨hconfig, hkeyed, hheard⟩ := heardAs_run nodeId config calls
  rintro event hmem rfl
  obtain ⟨s, hs, hover, -⟩ := of_mem_tick hkeyed hmem
  rcases (hheard event.peerId).cases with ⟨hnone, -⟩ | ⟨s', q', hs', hq', hseen⟩
  · rw [hnone] at hs
    cases hs
  · obtain rfl := Option.some.inj (hs.symm.trans hs')
    obtain rfl := Option.some.inj (hq.symm.trans hq')
    rw [PeerState.overdue_iff, hseen, hconfig] at hover
    omega

/-- A peer is known with a status when it is known and its last change tells the status. -/
theorem exists_status_iff (p : String) (status : PeerStatus) :
    (∃ s, (calls.foldl heartbeatStep (.new nodeId config)).peers.lookup p = some s ∧
        s.status = status) ↔
      p ∈ knownPeers calls ∧
        statusTold (lastChange p (eventsOf (.new nodeId config) calls)) = status := by
  obtain ⟨-, -, hheard⟩ := heardAs_run nodeId config calls
  rw [mem_knownPeers_iff config]
  constructor
  · rintro ⟨s, hs, rfl⟩
    rcases (hheard p).cases with ⟨hnone, -⟩ | ⟨_, q, -, hq, -⟩
    · rw [hnone] at hs
      cases hs
    · exact ⟨⟨q, hq⟩, (status_told nodeId config calls hs).symm⟩
  · rintro ⟨⟨q, hq⟩, rfl⟩
    rcases (hheard p).cases with ⟨-, hnone⟩ | ⟨s, _, hs, -⟩
    · rw [hnone] at hq
      cases hq
    · exact ⟨s, hs, status_told nodeId config calls hs⟩

/-- A peer that is not known has no change. -/
theorem lastChange_of_not_known {p : String} (hp : p ∉ knownPeers calls) :
    lastChange p (eventsOf (.new nodeId config) calls) = none := by
  obtain ⟨-, -, hheard⟩ := heardAs_run nodeId config calls
  rw [mem_knownPeers_iff config] at hp
  rcases (hheard p).cases with ⟨hnone, -⟩ | ⟨_, q, -, hq, -⟩
  · have hrun := statusTold_run nodeId config calls p
    rw [hnone] at hrun
    exact hrun
  · exact absurd ⟨q, hq⟩ hp

/-- **The event stream**: in every run, with every configuration and all times, a peer dies only
after it became suspect, by an earlier check; it becomes suspect only when nothing happened to
it or it has recovered, and recovers only when it was suspect or dead. A check emits at most one
event for each peer, and none for a peer heard from within the interval. The dead peers are
those whose last change is their death, and the alive ones are counted by the known peers
without a change or with a recovery as the last one. -/
theorem event_stream_well_formed (call : HeartbeatCall) :
    let m := calls.foldl heartbeatStep (.new nodeId config)
    let past := eventsOf (.new nodeId config) calls
    (∀ p, .peerDied p ∈ emitted m call → lastChange p past = some (.peerSuspect p)) ∧
      (∀ p, .peerSuspect p ∈ emitted m call →
        lastChange p past = none ∨ lastChange p past = some (.peerRecovered p)) ∧
      (∀ p, .peerRecovered p ∈ emitted m call →
        lastChange p past = some (.peerSuspect p) ∨ lastChange p past = some (.peerDied p)) ∧
      (∀ p, .peerSuspect p ∈ emitted m call ∨ .peerDied p ∈ emitted m call →
        ∃ now, call = .tick now) ∧
      (∀ p, ((emitted m call).filter (·.peerId = p)).length ≤ 1) ∧
      (∀ now p q, silence config calls p = some q → now - q.heard ≤ config.interval →
        ∀ event ∈ (m.tick now).1, event.peerId ≠ p) ∧
      (m.getDeadPeers.map PeerState.peerId).Nodup ∧
      (∀ p, p ∈ m.getDeadPeers.map PeerState.peerId ↔
        lastChange p past = some (.peerDied p)) ∧
      m.aliveCount = ((knownPeers calls).filter fun p =>
        lastChange p past = none ∨ lastChange p past = some (.peerRecovered p)).card := by
  intro m past
  have hkeyed : Keyed m := (heardAs_run nodeId config calls).2.1
  have halive : ∀ p, statusTold (lastChange p past) = .alive ↔
      lastChange p past = none ∨ lastChange p past = some (.peerRecovered p) :=
    fun p => statusTold_eq_iff.trans (by simp [changesTo])
  refine ⟨fun p hmem => ?_, fun p hmem => (halive p).mp (of_suspect nodeId config calls hmem),
    fun p hmem => ?_, fun p => tick_of_suspect_or_died, fun p => ?_,
    fun now p q => not_mem_tick_of_recent nodeId config calls, (peersOf_status hkeyed .dead).1,
    fun p => ?_, ?_⟩
  · have hchange := statusTold_eq_iff.mp (of_died nodeId config calls hmem)
    rwa [changesTo, List.mem_singleton] at hchange
  · have hchanged := of_recovered nodeId config calls hmem
    rw [Ne, halive, not_or] at hchanged
    cases hlast : lastChange p past with
    | none => exact absurd hlast hchanged.1
    | some event =>
        rcases lastChange_eq_some hlast with rfl | rfl | rfl
        · exact Or.inl rfl
        · exact Or.inr rfl
        · exact absurd hlast hchanged.2
  · rw [emitted_filter hkeyed]
    cases (peerStep m.config p (m.peers.lookup p) call).1 <;> simp
  · refine ((peersOf_status hkeyed .dead).2 p).trans ?_
    rw [exists_status_iff, statusTold_eq_iff, changesTo, List.mem_singleton]
    refine and_iff_right_of_imp fun hdied => ?_
    by_contra hunknown
    rw [lastChange_of_not_known nodeId config calls hunknown] at hdied
    cases hdied
  · obtain ⟨hnodup, hmem⟩ := peersOf_status hkeyed .alive
    rw [HeartbeatManager.aliveCount, ← List.length_map, ← List.toFinset_card_of_nodup hnodup]
    congr 1
    ext p
    rw [List.mem_toFinset, hmem, exists_status_iff, halive, Finset.mem_filter]

end

end VaultKeeper
