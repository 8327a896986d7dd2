import VaultKeeper.Heartbeat

/-!
# Silence and Misses

When a peer was last heard from and which checks have found it overdue since, told from the
calls alone, and how far the counter of `p2p/src/heartbeat.rs` says the same. It does as long
as no heartbeat reaches a peer that is alive and has missed one: such a heartbeat leaves the
counter as it is, and later misses are added to the earlier ones. And a miss is counted for
every check, so misses stand for intervals only when the checks are an interval apart.

## Main results

* `Counted.step`: the counter counts the checks since the peer was last heard from.
* `suspected_after_misses`: peers become suspect and die after as many misses in a row.
* `died_after_silence`: and after as many intervals, when the checks are that far apart.
-/

namespace VaultKeeper

/-- When a peer was last heard from, by a heartbeat or by the registration that made it known,
and the checks that have found it overdue since, the last one first. -/
structure Silence where
  heard : ℕ
  missed : List ℕ
deriving DecidableEq

/-- What a call adds to it. -/
def silenceStep (config : HeartbeatConfig) (p : String) (s : Option Silence) :
    HeartbeatCall → Option Silence
  | .registerPeer now peerId => if peerId = p then some (s.getD ⟨now, []⟩) else s
  | .processHeartbeat now nodeId _ _ => if nodeId = p then some ⟨now, []⟩ else s
  | .tick now =>
      s.map fun s => if config.interval < now - s.heard then ⟨s.heard, now :: s.missed⟩ else s

/-- The silence of a peer after some calls; nothing for a peer that is not known. -/
def silence (config : HeartbeatConfig) (calls : List HeartbeatCall) (p : String) :
    Option Silence :=
  calls.foldl (silenceStep config p) none

theorem silence_concat (config : HeartbeatConfig) (calls : List HeartbeatCall)
    (call : HeartbeatCall) (p : String) :
    silence config (calls ++ [call]) p =
      silenceStep config p (silence config calls p) call := by
  rw [silence, List.foldl_append]
  rfl

/-! ### One peer -/

/-- The state kept for a peer was last seen when the peer was last heard from. -/
def HeardAs (s : Option PeerState) (q : Option Silence) : Prop :=
  s.map PeerState.lastSeen = q.map Silence.heard

/-- And it counts the checks that have found the peer overdue since. -/
def CountedAs (s : Option PeerState) (q : Option Silence) : Prop :=
  s.map PeerState.missedHeartbeats = q.map fun q => UInt32.ofNat q.missed.length

/-- A heartbeat that reaches a peer which is alive finds no misses counted for it. -/
def HeardWithoutMisses (p : String) (m : HeartbeatManager) : HeartbeatCall → Prop
  | .processHeartbeat _ nodeId _ _ => nodeId = p → ∀ s ∈ m.peers.lookup p,
      s.status = .alive → s.missedHeartbeats = 0
  | _ => True

instance (p : String) (m : HeartbeatManager) :
    (call : HeartbeatCall) → Decidable (HeardWithoutMisses p m call)
  | .processHeartbeat .. => inferInstanceAs (Decidable (_ → ∀ s ∈ _, _ → _))
  | .registerPeer .. => isTrue trivial
  | .tick _ => isTrue trivial

theorem HeardAs.cases {s : Option PeerState} {q : Option Silence} (h : HeardAs s q) :
    s = none ∧ q = none ∨ ∃ s' q', s = some s' ∧ q = some q' ∧ s'.lastSeen = q'.heard := by
  cases s with
  | none =>
      cases q with
      | none => exact Or.inl ⟨rfl, rfl⟩
      | some q => cases h
  | some s =>
      cases q with
      | none => cases h
      | some q => exact Or.inr ⟨s, q, rfl, rfl, Option.some.inj h⟩

theorem HeardAs.step {config : HeartbeatConfig} {p : String} {s : Option PeerState}
    {q : Option Silence} (h : HeardAs s q) (call : HeartbeatCall) :
    HeardAs (peerStep config p s call).2 (silenceStep config p q call) := by
  cases call with
  | registerPeer now peerId =>
      rw [peerStep, silenceStep]
      split
      · rcases h.cases with ⟨rfl, rfl⟩ | ⟨s, q, rfl, rfl, hseen⟩
        · rfl
        · exact congrArg some hseen
      · exact h
  | processHeartbeat now nodeId timestamp availableSpace =>
      rw [peerStep, silenceStep]
      split
      · obtain ⟨event, missed, hhear, -⟩ := hear_cases (s.getD (.new p now)) now p availableSpace
        rw [hhear]
        rfl
      · exact h
  | tick now =>
      rcases h.cases with ⟨rfl, rfl⟩ | ⟨s, q, rfl, rfl, hseen⟩
      · rfl
      · refine congrArg some ?_
        beta_reduce
        rcases tick_cases config now s with ⟨hover, htick⟩ | ⟨hover, _, _, _, htick, -⟩
        · rw [PeerState.overdue_iff, hseen] at hover
          rw [htick, if_neg hover]
          exact hseen
        · rw [PeerState.overdue_iff, hseen] at hover
          rw [htick, if_pos hover]
          exact hseen

theorem CountedAs.step {config : HeartbeatConfig} {p : String} {m : HeartbeatManager}
    {q : Option Silence} (hheard : HeardAs (m.peers.lookup p) q)
    (h : CountedAs (m.peers.lookup p) q) {call : HeartbeatCall}
    (hcall : HeardWithoutMisses p m call) :
    CountedAs (peerStep config p (m.peers.lookup p) call).2 (silenceStep config p q call) := by
  cases call with
  | registerPeer now peerId =>
      rw [peerStep, silenceStep]
      split
      · rcases hheard.cases with ⟨hs, rfl⟩ | ⟨s, q, hs, rfl, -⟩
        · rw [hs]
          rfl
        · rw [hs] at h ⊢
          exact h
      · exact h
  | processHeartbeat now nodeId timestamp availableSpace =>
      rw [peerStep, silenceStep]
      split
      · next hp =>
        obtain ⟨event, missed, hhear, hcase⟩ :=
          hear_cases ((m.peers.lookup p).getD (.new p now)) now p availableSpace
        have hmissed : missed = 0 := by
          rcases hcase with ⟨halive, -, rfl⟩ | ⟨-, -, rfl⟩
          · cases hs : m.peers.lookup p with
            | none => rfl
            | some s =>
                rw [hs] at halive
                exact hcall hp s hs halive
          · rfl
        rw [hhear, hmissed]
        rfl
      · exact h
  | tick now =>
      rcases hheard.cases with ⟨hs, rfl⟩ | ⟨s, q, hs, rfl, hseen⟩
      · rw [hs]
        rfl
      · rw [hs] at h ⊢
        have hmissed : s.missedHeartbeats = UInt32.ofNat q.missed.length := Option.some.inj h
        refine congrArg some ?_
        beta_reduce
        rcases tick_cases config now s with ⟨hover, htick⟩ | ⟨hover, _, _, _, htick, -⟩
        · rw [PeerState.overdue_iff, hseen] at hover
          rw [htick, if_neg hover]
          exact hmissed
        · rw [PeerState.overdue_iff, hseen] at hover
          rw [htick, if_pos hover]
          simp [hmissed, UInt32.ofNat_add]

/-! ### Runs -/

/-- A run keeps its configuration, and every peer as it was last heard from. -/
theorem heardAs_run (nodeId : String) (config : HeartbeatConfig) (calls : List HeartbeatCall) :
    let m := calls.foldl heartbeatStep (.new nodeId config)
    m.config = config ∧ Keyed m ∧
      ∀ p, HeardAs (m.peers.lookup p) (silence config calls p) := by
  refine Runs.history heartbeatStep (G := fun _ _ => True)
    (I := fun calls m => m.config = config ∧ Keyed m ∧
      ∀ p, HeardAs (m.peers.lookup p) (silence config calls p))
    (fun calls m call hm _ => ?_) ⟨rfl, new_keyed nodeId config, fun p => rfl⟩ fun _ _ => trivial
  obtain ⟨hconfig, hkeyed, hheard⟩ := hm
  refine ⟨(heartbeatStep_config m call).trans hconfig, hkeyed.step call, fun p => ?_⟩
  rw [lookup_heartbeatStep, silence_concat, hconfig]
  exact (hheard p).step call

/-- The misses of a peer are counted in every run without a heartbeat that finds it alive with
misses. -/
theorem countedAs_run (nodeId : String) (config : HeartbeatConfig) (calls : List HeartbeatCall)
    (p : String) (hcalls : ∀ v ∈ Runs.visits heartbeatStep (.new nodeId config) calls,
      HeardWithoutMisses p v.1 v.2) :
    CountedAs ((calls.foldl heartbeatStep (.new nodeId config)).peers.lookup p)
      (silence config calls p) := by
  have hrun := Runs.history heartbeatStep (G := HeardWithoutMisses p)
    (I := fun calls m => m.config = config ∧ HeardAs (m.peers.lookup p) (silence config calls p) ∧
      CountedAs (m.peers.lookup p) (silence config calls p))
    (s := .new nodeId config) (fun calls m call hm hcall => ?_) ⟨rfl, rfl, rfl⟩ hcalls
  · exact hrun.2.2
  · obtain ⟨hconfig, hheard, hcounted⟩ := hm
    refine ⟨(heartbeatStep_config m call).trans hconfig, ?_, ?_⟩
    · rw [lookup_heartbeatStep, silence_concat, hconfig]
      exact hheard.step call
    · rw [lookup_heartbeatStep, silence_concat, hconfig]
      exact hcounted.step hheard hcall

/-- What a check finds overdue is known, and this check is counted with the others. -/
theorem silence_tick {config : HeartbeatConfig} {calls : List HeartbeatCall} {now : ℕ}
    {p : String} {s : PeerState} {q : Silence} (hq : silence config calls p = some q)
    (hseen : s.lastSeen = q.heard) (hover : s.Overdue config now) :
    silence config (calls ++ [.tick now]) p = some ⟨q.heard, now :: q.missed⟩ := by
  rw [PeerState.overdue_iff, hseen] at hover
  simp [silence_concat, hq, silenceStep, hover]

/-- A peer that is known has a silence, which tells when it was last seen and its misses. -/
theorem HeardAs.known {o : Option PeerState} {q : Option Silence} (h : HeardAs o q)
    (hcounted : CountedAs o q) (s : PeerState) (hs : o = some s) :
    ∃ q', q = some q' ∧ s.lastSeen = q'.heard ∧
      s.missedHeartbeats = UInt32.ofNat q'.missed.length := by
  rcases h.cases with ⟨hnone, -⟩ | ⟨s', q', hs', rfl, hseen⟩
  · rw [hs] at hnone
    cases hnone
  · obtain rfl := Option.some.inj (hs.symm.trans hs')
    rw [hs] at hcounted
    exact ⟨q', rfl, hseen, Option.some.inj hcounted⟩

/-- A counter that has reached a threshold has counted as many checks. -/
theorem le_length_of_le_counter {threshold missed : UInt32} {checks : List ℕ} {now : ℕ}
    (hmissed : missed = UInt32.ofNat checks.length) (h : threshold ≤ missed + 1) :
    threshold.toNat ≤ (now :: checks).length := by
  have hle : threshold.toNat ≤ (missed + 1).toNat := UInt32.le_iff_toNat_le.mp h
  have hmod : (missed + 1).toNat ≤ checks.length + 1 := by
    rw [hmissed, show (1 : UInt32) = UInt32.ofNat 1 from rfl, ← UInt32.ofNat_add,
      UInt32.toNat_ofNat']
    exact Nat.mod_le ..
  exact hle.trans hmod

/-- A check that declares a peer suspect or dead, in a run without a heartbeat that finds it
alive with misses, has counted the misses since it was last seen, this one included. -/
theorem misses_of_mem_tick (nodeId : String) (config : HeartbeatConfig)
    (calls : List HeartbeatCall) (now : ℕ) (p : String)
    (hcalls : ∀ v ∈ Runs.visits heartbeatStep (.new nodeId config) calls,
      HeardWithoutMisses p v.1 v.2) {event : PeerEvent}
    (hevent : event ∈ ((calls.foldl heartbeatStep (.new nodeId config)).tick now).1)
    (hp : event.peerId = p) :
    ∃ s missed, (calls.foldl heartbeatStep (.new nodeId config)).peers.lookup p = some s ∧
      silence config (calls ++ [.tick now]) p = some ⟨s.lastSeen, now :: missed⟩ ∧
      (event = .peerSuspect p → config.suspectThreshold.toNat ≤ (now :: missed).length) ∧
      (event = .peerDied p → config.maxMissed.toNat ≤ (now :: missed).length) := by
  subst hp
  obtain ⟨hconfig, hkeyed, hheard⟩ := heardAs_run nodeId config calls
  obtain ⟨s, hs, hover, hcase⟩ := of_mem_tick hkeyed hevent
  obtain ⟨q, hq, hseen, hmissed⟩ :=
    (hheard event.peerId).known (countedAs_run nodeId config calls _ hcalls) s hs
  rw [hconfig] at hover hcase
  refine ⟨s, q.missed, hs, ?_, fun hsuspect => ?_, fun hdied => ?_⟩
  · rw [silence_tick hq hseen hover, hseen]
  · rcases hcase with ⟨-, -, hle⟩ | ⟨hdied, -⟩
    · exact le_length_of_le_counter hmissed hle
    · cases hsuspect.symm.trans hdied
  · rcases hcase with ⟨hsuspect, -⟩ | ⟨-, -, hle⟩
    · cases hdied.symm.trans hsuspect
    · exact le_length_of_le_counter hmissed hle

/-- **Consecutive misses**: in a run without a heartbeat that finds the peer alive with misses,
a check declares a peer suspect, or dead, only after as many checks have found it overdue since
it was last heard from, this one included, as the configuration says. -/
theorem suspected_after_misses (nodeId : String) (config : HeartbeatConfig)
    (calls : List HeartbeatCall) (now : ℕ) (p : String)
    (hcalls : ∀ v ∈ Runs.visits heartbeatStep (.new nodeId config) calls,
      HeardWithoutMisses p v.1 v.2) :
    let events := ((calls.foldl heartbeatStep (.new nodeId config)).tick now).1
    (.peerSuspect p ∈ events → ∃ q, silence config (calls ++ [.tick now]) p = some q ∧
        config.suspectThreshold.toNat ≤ q.missed.length) ∧
      (.peerDied p ∈ events → ∃ q, silence config (calls ++ [.tick now]) p = some q ∧
        config.maxMissed.toNat ≤ q.missed.length) := by
  intro events
  constructor
  · intro hevent
    obtain ⟨s, missed, -, hsilence, hsuspect, -⟩ :=
      misses_of_mem_tick nodeId config calls now p hcalls hevent rfl
    exact ⟨_, hsilence, hsuspect rfl⟩
  · intro hevent
    obtain ⟨s, missed, -, hsilence, -, hdied⟩ :=
      misses_of_mem_tick nodeId config calls now p hcalls hevent rfl
    exact ⟨_, hsilence, hdied rfl⟩

/-- A peer whose heartbeat came in time is dead after two misses since. -/
theorem dead_after_two_misses :
    let calls : List HeartbeatCall := [.registerPeer 0 "p", .processHeartbeat (10 ^ 9) "p" 0 0,
      .tick (3 * 10 ^ 9)]
    ∃ q, silence ⟨1, 2, 1⟩ (calls ++ [.tick (4 * 10 ^ 9)]) "p" = some q ∧ 2 ≤ q.missed.length :=
  (suspected_after_misses "n" ⟨1, 2, 1⟩ _ (4 * 10 ^ 9) "p" (by decide)).2 (by decide)

/-- A peer that misses a heartbeat, sends one, and misses one again. -/
def missHeardMiss : List HeartbeatCall :=
  [.registerPeer 0 "p", .tick (2 * 10 ^ 9), .processHeartbeat (3 * 10 ^ 9) "p" 0 0]

/-- It is declared suspect for two misses, of which one came before its heartbeat. -/
theorem suspected_after_one_miss :
    ¬ (.peerSuspect "p" ∈
        ((missHeardMiss.foldl heartbeatStep (.new "n" ⟨1, 3, 2⟩)).tick (5 * 10 ^ 9)).1 →
      ∃ q, silence ⟨1, 3, 2⟩ (missHeardMiss ++ [.tick (5 * 10 ^ 9)]) "p" = some q ∧
        2 ≤ q.missed.length) := by
  intro h
  obtain ⟨q, hq, hlen⟩ := h (by decide)
  have hone : silence ⟨1, 3, 2⟩ (missHeardMiss ++ [.tick (5 * 10 ^ 9)]) "p" =
      some ⟨3 * 10 ^ 9, [5 * 10 ^ 9]⟩ := by decide
  rw [hone] at hq
  obtain rfl := Option.some.inj hq
  exact absurd hlen (by decide)

/-! ### Misses and intervals -/

/-- A check that found the peer overdue came more than an interval after the peer was last
heard from. -/
theorem heard_add_lt (config : HeartbeatConfig) (calls : List HeartbeatCall) (p : String)
    {q : Silence} (hq : silence config calls p = some q) :
    ∀ t ∈ q.missed, q.heard + config.interval < t := by
  induction calls using List.reverseRecOn generalizing q with
  | nil => cases hq
  | append_singleton calls call ih =>
      rw [silence_concat] at hq
      cases call with
      | registerPeer now peerId =>
          rw [silenceStep] at hq
          split at hq
          · obtain rfl := Option.some.inj hq
            cases hbefore : silence config calls p with
            | none => simp
            | some q => exact ih hbefore
          · exact ih hq
      | processHeartbeat now nodeId timestamp availableSpace =>
          rw [silenceStep] at hq
          split at hq
          · obtain rfl := Option.some.inj hq
            simp
          · exact ih hq
      | tick now =>
          obtain ⟨q', hbefore, rfl⟩ := Option.map_eq_some_iff.mp hq
          split
          · next hover =>
            have hnow : q'.heard + config.interval < now := by omega
            rw [List.forall_mem_cons]
            exact ⟨hnow, ih hbefore⟩
          · exact ih hbefore

/-- Checks at least an interval apart, the first of them more than an interval after a time. -/
theorem length_mul_lt {heard interval t : ℕ} {earlier : List ℕ}
    (hchain : (t :: earlier).IsChain fun later earlier => earlier + interval ≤ later)
    (hover : ∀ x ∈ t :: earlier, heard + interval < x) :
    heard + (t :: earlier).length * interval < t := by
  induction earlier generalizing t with
  | nil => simpa using hover
  | cons t' earlier ih =>
      rw [List.isChain_cons_cons] at hchain
      rw [List.forall_mem_cons] at hover
      have hearlier := ih hchain.2 hover.2
      rw [List.length_cons, Nat.succ_mul]
      omega

/-- **Silence before death**: in a run without a heartbeat that finds the peer alive with
misses, when the checks that found it overdue since it was last heard from are at least an
interval apart, a check declares it dead only when it was last seen more than `maxMissed`
intervals ago. -/
theorem died_after_silence (nodeId : String) (config : HeartbeatConfig)
    (calls : List HeartbeatCall) (now : ℕ) (p : String)
    (hcalls : ∀ v ∈ Runs.visits heartbeatStep (.new nodeId config) calls,
      HeardWithoutMisses p v.1 v.2)
    (hspaced : ∀ q ∈ silence config (calls ++ [.tick now]) p,
      q.missed.IsChain fun later earlier => earlier + config.interval ≤ later) :
    let m := calls.foldl heartbeatStep (.new nodeId config)
    .peerDied p ∈ (m.tick now).1 →
      ∃ s, m.peers.lookup p = some s ∧ config.maxMissed.toNat * config.interval <
        now - s.lastSeen := by
  intro m hdied
  obtain ⟨s, missed, hs, hnow, -, hle⟩ :=
    misses_of_mem_tick nodeId config calls now p hcalls hdied rfl
  have hlong : s.lastSeen + (now :: missed).length * config.interval < now :=
    length_mul_lt (hspaced _ hnow) (heard_add_lt config _ p hnow)
  refine ⟨s, hs, ?_⟩
  have hmul := Nat.mul_le_mul_right config.interval (hle rfl)
  omega

/-- Three checks, each an interval after the one before it. -/
theorem died_after_three_seconds :
    let m := [HeartbeatCall.registerPeer 0 "p", .tick (2 * 10 ^ 9), .tick (3 * 10 ^ 9)].foldl
      heartbeatStep (.new "n" ⟨1, 3, 1⟩)
    ∃ s, m.peers.lookup "p" = some s ∧ 3 * 10 ^ 9 < 4 * 10 ^ 9 - s.lastSeen :=
  died_after_silence "n" ⟨1, 3, 1⟩ _ (4 * 10 ^ 9) "p" (by decide) (by decide) (by decide)

/-- A peer is dead after two checks in one nanosecond, a second after it was last seen. -/
theorem died_at_once :
    let m := [HeartbeatCall.registerPeer 0 "p", .tick (10 ^ 9 + 1)].foldl heartbeatStep
      (.new "n" ⟨1, 2, 1⟩)
    ¬ (.peerDied "p" ∈ (m.tick (10 ^ 9 + 1)).1 →
      ∃ s, m.peers.lookup "p" = some s ∧ 2 * 10 ^ 9 < 10 ^ 9 + 1 - s.lastSeen) := by
  intro m h
  obtain ⟨s, hs, hlt⟩ := h (by decide)
  omega

end VaultKeeper
