import VaultKeeper.Liveness

/-!
# Detecting a Peer that Falls Silent

What the checks of `p2p/src/heartbeat.rs` make of a peer that is alive and sends no heartbeat
any more. Every check later than the interval after the peer was last seen is a miss, and the
misses are counted on from those that the last heartbeat left over; the peer becomes suspect when
the count reaches the first threshold, and dead when it reaches the second one, but not by the
same check. Registrations do not help it, and other peers do not matter.

## Main results

* `PeerState.tick_silent`: what one more miss does.
* `silence_detected`: the status of a silent peer and the events about it, by its misses.
-/

namespace VaultKeeper

/-- Whether a call is a heartbeat of a peer. -/
def HeartbeatCall.HeardFrom (p : String) : HeartbeatCall → Prop
  | .processHeartbeat _ nodeId _ _ => nodeId = p
  | _ => False

/-- Whether a call is a check that finds a peer overdue which was last seen at a time. -/
def HeartbeatCall.isMiss (config : HeartbeatConfig) (seen : ℕ) : HeartbeatCall → Bool
  | .tick now => config.interval < now - seen
  | _ => false

/-- The misses of a peer in a run, when it was last seen before the run. -/
def misses (config : HeartbeatConfig) (seen : ℕ) (calls : List HeartbeatCall) : ℕ :=
  calls.countP (·.isMiss config seen)

section Thresholds

variable (config : HeartbeatConfig) (missed : UInt32)

/-- The miss that makes a peer suspect which is alive, by the misses counted for it before. -/
def suspectAt : ℕ :=
  max 1 (config.suspectThreshold.toNat - missed.toNat)

/-- The miss that makes it dead. -/
def deadAt : ℕ :=
  max (suspectAt config missed + 1) (config.maxMissed.toNat - missed.toNat)

/-- Its status after some misses. -/
def statusAfter (k : ℕ) : PeerStatus :=
  if k < suspectAt config missed then .alive else if k < deadAt config missed then .suspect
  else .dead

/-- The events about it. -/
def noticesAfter (p : String) (k : ℕ) : List PeerEvent :=
  if k < suspectAt config missed then []
  else if k < deadAt config missed then [.peerSuspect p]
  else [.peerSuspect p, .peerDied p]

theorem suspectAt_lt_deadAt : suspectAt config missed < deadAt config missed :=
  lt_of_lt_of_le (Nat.lt_succ_self _) (le_max_left ..)

variable {config missed} {k : ℕ}

theorem after_of_lt_suspectAt (h : k < suspectAt config missed) (p : String) :
    statusAfter config missed k = .alive ∧ noticesAfter config missed p k = [] :=
  ⟨if_pos h, if_pos h⟩

theorem after_of_lt_deadAt (h : suspectAt config missed ≤ k) (h' : k < deadAt config missed)
    (p : String) : statusAfter config missed k = .suspect ∧
      noticesAfter config missed p k = [.peerSuspect p] := by
  rw [statusAfter, noticesAfter, if_neg (Nat.not_lt.mpr h), if_pos h', if_neg (Nat.not_lt.mpr h),
    if_pos h']
  exact ⟨rfl, rfl⟩

theorem after_of_deadAt_le (h : deadAt config missed ≤ k) (p : String) :
    statusAfter config missed k = .dead ∧
      noticesAfter config missed p k = [.peerSuspect p, .peerDied p] := by
  have hsuspect := (suspectAt_lt_deadAt config missed).le.trans h
  rw [statusAfter, noticesAfter, if_neg (Nat.not_lt.mpr hsuspect), if_neg (Nat.not_lt.mpr h),
    if_neg (Nat.not_lt.mpr hsuspect), if_neg (Nat.not_lt.mpr h)]
  exact ⟨rfl, rfl⟩

theorem status_dead_iff : statusAfter config missed k = .dead ↔ deadAt config missed ≤ k := by
  rcases Nat.lt_or_ge k (deadAt config missed) with hk | hk
  · refine iff_of_false ?_ (Nat.not_le.mpr hk)
    rw [statusAfter, if_pos hk]
    split_ifs <;> simp
  · exact iff_of_true (after_of_deadAt_le hk "").1 hk

end Thresholds

/-! ### One peer -/

/-- The state of a peer that was alive when it was last heard from, after some misses. -/
structure SilentFor (config : HeartbeatConfig) (s : PeerState) (k : ℕ) (s' : PeerState) : Prop where
  peerId : s'.peerId = s.peerId
  lastSeen : s'.lastSeen = s.lastSeen
  counted : s'.missedHeartbeats.toNat = s.missedHeartbeats.toNat + k
  status : s'.status = statusAfter config s.missedHeartbeats k

/-- **One more miss** makes the peer suspect or dead when its number is the one for it. -/
theorem SilentFor.tick {config : HeartbeatConfig} {s s' : PeerState} {k now : ℕ}
    (h : SilentFor config s k s') (hover : s'.Overdue config now)
    (hcount : s.missedHeartbeats.toNat + k + 1 < 2 ^ 32) :
    SilentFor config s (k + 1) (s'.tick config now).2 ∧
      noticesAfter config s.missedHeartbeats s.peerId (k + 1) =
        noticesAfter config s.missedHeartbeats s.peerId k ++ (s'.tick config now).1.toList := by
  have hmissed : (s'.missedHeartbeats + 1).toNat = s.missedHeartbeats.toNat + (k + 1) := by
    rw [UInt32.toNat_add, h.counted]
    exact Nat.mod_eq_of_lt hcount
  have hsuspect : config.suspectThreshold ≤ s'.missedHeartbeats + 1 ↔
      suspectAt config s.missedHeartbeats ≤ k + 1 := by
    rw [UInt32.le_iff_toNat_le, hmissed, suspectAt]
    omega
  have hlt := suspectAt_lt_deadAt config s.missedHeartbeats
  rw [PeerState.tick, if_pos hover, h.status]
  rcases Nat.lt_or_ge k (suspectAt config s.missedHeartbeats) with halive | hsusp
  · -- alive: the miss may be the one that makes it suspect
    obtain ⟨hstatus, hnotices⟩ := after_of_lt_suspectAt halive s.peerId
    simp only [hstatus, hnotices, hsuspect]
    rcases Nat.lt_or_ge (k + 1) (suspectAt config s.missedHeartbeats) with hk | hk
    · obtain ⟨hstatus', hnotices'⟩ := after_of_lt_suspectAt hk s.peerId
      rw [if_neg (Nat.not_le.mpr hk), hnotices']
      exact ⟨⟨h.peerId, h.lastSeen, hmissed, hstatus'.symm⟩, rfl⟩
    · obtain ⟨hstatus', hnotices'⟩ := after_of_lt_deadAt hk (by omega) s.peerId
      rw [if_pos hk, hnotices', h.peerId]
      exact ⟨⟨rfl, h.lastSeen, hmissed, hstatus'.symm⟩, rfl⟩
  rcases Nat.lt_or_ge k (deadAt config s.missedHeartbeats) with hsuspected | hdead
  · -- suspect: it may be the one that makes it dead
    have hdied : config.maxMissed ≤ s'.missedHeartbeats + 1 ↔
        deadAt config s.missedHeartbeats ≤ k + 1 := by
      rw [UInt32.le_iff_toNat_le, hmissed, deadAt]
      omega
    obtain ⟨hstatus, hnotices⟩ := after_of_lt_deadAt hsusp hsuspected s.peerId
    simp only [hstatus, hnotices, hdied]
    rcases Nat.lt_or_ge (k + 1) (deadAt config s.missedHeartbeats) with hk | hk
    · obtain ⟨hstatus', hnotices'⟩ := after_of_lt_deadAt (by omega) hk s.peerId
      rw [if_neg (Nat.not_le.mpr hk), hnotices']
      exact ⟨⟨h.peerId, h.lastSeen, hmissed, hstatus'.symm⟩, rfl⟩
    · obtain ⟨hstatus', hnotices'⟩ := after_of_deadAt_le hk s.peerId
      rw [if_pos hk, hnotices', h.peerId]
      exact ⟨⟨rfl, h.lastSeen, hmissed, hstatus'.symm⟩, rfl⟩
  · -- dead: it stays so
    obtain ⟨hstatus, hnotices⟩ := after_of_deadAt_le hdead s.peerId
    obtain ⟨hstatus', hnotices'⟩ := after_of_deadAt_le (Nat.le_succ_of_le hdead) s.peerId
    simp only [hstatus, hnotices, hnotices']
    exact ⟨⟨h.peerId, h.lastSeen, hmissed, hstatus'.symm⟩, rfl⟩

/-! ### Runs -/

theorem misses_concat (config : HeartbeatConfig) (seen : ℕ) (calls : List HeartbeatCall)
    (call : HeartbeatCall) : misses config seen (calls ++ [call]) =
      misses config seen calls + if call.isMiss config seen then 1 else 0 := by
  rw [misses, List.countP_append, List.countP_singleton]
  rfl

/-- What a call that is no heartbeat of a silent peer does to it. -/
theorem SilentFor.step {config : HeartbeatConfig} {s s' : PeerState} {k : ℕ}
    (h : SilentFor config s k s') {call : HeartbeatCall} (hsilent : ¬ call.HeardFrom s.peerId)
    (hcount : s.missedHeartbeats.toNat + (k + if call.isMiss config s.lastSeen then 1 else 0) <
      2 ^ 32) :
    ∃ s'', (peerStep config s.peerId (some s') call).2 = some s'' ∧
      SilentFor config s (k + if call.isMiss config s.lastSeen then 1 else 0) s'' ∧
      noticesAfter config s.missedHeartbeats s.peerId
          (k + if call.isMiss config s.lastSeen then 1 else 0) =
        noticesAfter config s.missedHeartbeats s.peerId k ++
          (peerStep config s.peerId (some s') call).1.toList := by
  cases call with
  | registerPeer now peerId =>
      refine ⟨s', ?_, h, (List.append_nil _).symm⟩
      rw [peerStep]
      exact ite_self _
  | processHeartbeat now nodeId timestamp availableSpace =>
      rw [HeartbeatCall.HeardFrom] at hsilent
      rw [peerStep, if_neg hsilent]
      exact ⟨s', rfl, h, (List.append_nil _).symm⟩
  | tick now =>
      refine ⟨(s'.tick config now).2, rfl, ?_⟩
      have hmiss : (HeartbeatCall.tick now).isMiss config s.lastSeen = true ↔
          s'.Overdue config now := by
        rw [PeerState.overdue_iff, h.lastSeen]
        exact decide_eq_true_iff
      by_cases hover : s'.Overdue config now
      · rw [if_pos (hmiss.mpr hover)]
        rw [if_pos (hmiss.mpr hover)] at hcount
        exact h.tick hover hcount
      · rw [if_neg (mt hmiss.mp hover)]
        have htick : s'.tick config now = (none, s') := if_neg hover
        rw [peerStep, Option.bind_some, htick]
        exact ⟨h, (List.append_nil _).symm⟩

/-- A run without a heartbeat of a peer counts its misses. -/
theorem silentFor_run {config : HeartbeatConfig} {m : HeartbeatManager} (hm : Keyed m)
    (hconfig : m.config = config) {s : PeerState} (hs : m.peers.lookup s.peerId = some s)
    (halive : s.status = .alive) {later : List HeartbeatCall}
    (hsilent : ∀ call ∈ later, ¬ call.HeardFrom s.peerId)
    (hcount : s.missedHeartbeats.toNat + misses config s.lastSeen later < 2 ^ 32) :
    (later.foldl heartbeatStep m).config = config ∧ Keyed (later.foldl heartbeatStep m) ∧
      ∃ s', (later.foldl heartbeatStep m).peers.lookup s.peerId = some s' ∧
        SilentFor config s (misses config s.lastSeen later) s' ∧
        (eventsOf m later).filter (·.peerId = s.peerId) =
          noticesAfter config s.missedHeartbeats s.peerId (misses config s.lastSeen later) := by
  induction later using List.reverseRecOn with
  | nil =>
      have hpos : 0 < suspectAt config s.missedHeartbeats :=
        lt_of_lt_of_le Nat.one_pos (le_max_left ..)
      obtain ⟨hstatus, hnotices⟩ := after_of_lt_suspectAt hpos s.peerId
      exact ⟨hconfig, hm, s, hs, ⟨rfl, rfl, rfl, halive.trans hstatus.symm⟩, hnotices.symm⟩
  | append_singleton later call ih =>
      rw [List.forall_mem_append, List.forall_mem_singleton] at hsilent
      rw [misses_concat] at hcount ⊢
      obtain ⟨hconfig', hm', s', hs', hsilence, hevents⟩ := ih hsilent.1 (by omega)
      obtain ⟨s'', hstep, hsilence', hnotices⟩ := hsilence.step hsilent.2 hcount
      rw [List.foldl_append, List.foldl_cons, List.foldl_nil]
      refine ⟨(heartbeatStep_config _ call).trans hconfig', hm'.step call, s'', ?_, hsilence', ?_⟩
      · rw [lookup_heartbeatStep, hconfig', hs', hstep]
      · rw [eventsOf_concat, List.filter_append, hevents, emitted_filter hm', hconfig', hs',
          hnotices]

/-- **A silent peer is detected.** In every run, a peer that is alive and is not heard from any
more is suspect, and dead, from the miss on with which the misses left over before and those
since reach the threshold, and one event tells of each. The misses are all the checks later than
the interval after the peer was last seen; nothing that happens to the other peers, nor a
registration of this one, delays them. -/
theorem silence_detected (nodeId : String) (config : HeartbeatConfig)
    (calls later : List HeartbeatCall) {p : String} {s : PeerState}
    (hs : (calls.foldl heartbeatStep (.new nodeId config)).peers.lookup p = some s)
    (halive : s.status = .alive) (hsilent : ∀ call ∈ later, ¬ call.HeardFrom p)
    (hcount : s.missedHeartbeats.toNat + misses config s.lastSeen later < 2 ^ 32) :
    let m := calls.foldl heartbeatStep (.new nodeId config)
    let k := misses config s.lastSeen later
    (∃ s', (later.foldl heartbeatStep m).peers.lookup p = some s' ∧
        s'.status = statusAfter config s.missedHeartbeats k) ∧
      (eventsOf m later).filter (·.peerId = p) =
        noticesAfter config s.missedHeartbeats p k ∧
      (p ∈ (later.foldl heartbeatStep m).getDeadPeers.map PeerState.peerId ↔
        deadAt config s.missedHeartbeats ≤ k) := by
  intro m k
  obtain ⟨hconfig, hm, -⟩ := heardAs_run nodeId config calls
  obtain rfl : s.peerId = p := hm p s hs
  obtain ⟨-, hm', s', hs', hsilence, hevents⟩ := silentFor_run hm hconfig hs halive hsilent hcount
  refine ⟨⟨s', hs', hsilence.status⟩, hevents, ?_⟩
  refine ((peersOf_status hm' .dead).2 s.peerId).trans ?_
  rw [← status_dead_iff, ← hsilence.status]
  constructor
  · rintro ⟨s'', hs'', hdead⟩
    rwa [Option.some.inj (hs'.symm.trans hs'')]
  · exact fun hdead => ⟨s', hs', hdead⟩

/-- By default a peer that is silent is suspect after one miss and dead after three. -/
theorem silence_detected_default :
    let m := heartbeatStep (.new "a" .default) (.registerPeer 0 "b")
    let later : List HeartbeatCall :=
      [.tick 800000000000, .tick 1000000000000, .registerPeer 1000000000001 "b",
        .tick 2000000000000, .processHeartbeat 2000000000001 "c" 2000 7, .tick 3000000000000]
    (eventsOf m later).filter (·.peerId = "b") = [.peerSuspect "b", .peerDied "b"] ∧
      "b" ∈ (later.foldl heartbeatStep m).getDeadPeers.map PeerState.peerId := by
  intro m later
  obtain ⟨-, hevents, hdead⟩ := silence_detected "a" .default [.registerPeer 0 "b"] later
    (p := "b") (s := .new "b" 0) rfl rfl (by simp [later, HeartbeatCall.HeardFrom]) (by decide)
  exact ⟨hevents, hdead.mpr (by decide)⟩

end VaultKeeper
