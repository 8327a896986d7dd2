import VaultKeeper.Gossip

/-!
# Gossip between Nodes

Any number of nodes number their messages, each with its own queue, and one node receives
them in any order and any number of times, and checks each number against the one set of
the numbers it has seen. A message is identified by its place among the sent ones. Every
node counts from 0, so messages of two nodes have the same numbers, and the set, which knows
numbers only, takes the second of two for a message it has seen. The queue of one node gives
its first `2^64` messages different numbers, so the messages to keep apart are those of
different nodes.

## Main results

* `Network.Invariant.step`: what is remembered is the number of a delivered message, and
  nothing is forgotten before more messages were delivered than the set has room for.
* `sequence_ne_of_same_sender`: the messages of one node have different numbers.
* `first_delivery_new`: all first deliveries of a run are reported as new when every message
  comes after messages of other nodes with other numbers only; and, as long as nothing is
  forgotten, only then.
-/

namespace VaultKeeper

open MessagePriority (levels levels_descending)

variable {σ : Type*} [DecidableEq σ]

/-- The queues of the sending nodes, the messages that were sent, the set of the receiving
node, and the messages that reached it. -/
structure Network (σ : Type*) where
  senders : σ → QueueRun
  sent : List (σ × GossipMessage)
  seen : SeenMessages
  delivered : Finset ℕ

/-- The network of nodes with new queues of the given capacities. -/
def Network.new (capacities : σ → ℕ) (maxSize : ℕ) : Network σ where
  senders a := .new (capacities a)
  sent := []
  seen := .new maxSize
  delivered := ∅

/-- A node calls its queue, or a sent message is delivered and its number checked. -/
inductive NetEvent (σ : Type*)
  | call (sender : σ) (call : QueueCall)
  | deliver (k : ℕ) (order : IterOrder)

/-- What a call takes out of a queue. -/
def taken (s : QueueRun) : QueueCall → List GossipMessage
  | .enqueue .. => []
  | .dequeue => s.queue.dequeue.1.toList

/-- One event. What a node takes out of its queue is sent. -/
def netStep (s : Network σ) : NetEvent σ → Network σ
  | .call sender call =>
      { s with
        senders := Function.update s.senders sender (queueStep (s.senders sender) call)
        sent := s.sent ++ (taken (s.senders sender) call).map (Prod.mk sender) }
  | .deliver k order =>
      match s.sent[k]? with
      | none => s
      | some (_, msg) =>
          { s with
            seen := (s.seen.checkAndMark order msg.sequence).2
            delivered := insert k s.delivered }

/-- A delivery reports the message as new when it is the first of this message. -/
def FirstDeliveryNew (s : Network σ) : NetEvent σ → Prop
  | .call .. => True
  | .deliver k order => ∀ sender msg, s.sent[k]? = some (sender, msg) → k ∉ s.delivered →
      (s.seen.checkAndMark order msg.sequence).1 = true

/-- The first delivery of a message comes after messages with other numbers only, among
those of other nodes, and those of the same node once its counter may have started over. -/
def Apart (s : Network σ) : NetEvent σ → Prop
  | .call .. => True
  | .deliver k _ => ∀ sender msg, s.sent[k]? = some (sender, msg) → k ∉ s.delivered →
      ∀ j ∈ s.delivered, ∀ sender' msg', s.sent[j]? = some (sender', msg') →
        sender' ≠ sender ∨ 2 ^ 64 < (s.senders sender).accepted.length →
        msg'.sequence ≠ msg.sequence

/-- What holds between events: the queues are those of runs, what a node has sent is what it
took out of its queue, only sent messages are delivered, what is remembered is the number of
a delivered message, and all these numbers are remembered as long as there is room. -/
structure Network.Invariant (capacities : σ → ℕ) (maxSize : ℕ) (s : Network σ) : Prop where
  senders : ∀ a, (s.senders a).Invariant (capacities a)
  sent : ∀ a, (s.sent.filter (·.1 = a)).map Prod.snd = (s.senders a).dequeued
  capacity : s.seen.maxSize = maxSize
  delivered : ∀ j ∈ s.delivered, j < s.sent.length
  seen : ∀ x ∈ s.seen.seen, ∃ j ∈ s.delivered, ∃ sender msg,
    s.sent[j]? = some (sender, msg) ∧ msg.sequence = x
  remembered : s.delivered.card ≤ maxSize → ∀ j ∈ s.delivered, ∀ sender msg,
    s.sent[j]? = some (sender, msg) → msg.sequence ∈ s.seen.seen

theorem Network.new_invariant (capacities : σ → ℕ) (maxSize : ℕ) :
    (Network.new capacities maxSize).Invariant capacities maxSize where
  senders a := QueueRun.new_invariant (capacities a)
  sent _ := rfl
  capacity := rfl
  delivered := by simp [Network.new]
  seen := by simp [Network.new, SeenMessages.new]
  remembered := by simp [Network.new]

/-- What a call takes out is recorded as dequeued. -/
theorem queueStep_dequeued (s : QueueRun) (call : QueueCall) :
    (queueStep s call).dequeued = s.dequeued ++ taken s call := by
  cases call with
  | enqueue now priority peerId message =>
      rw [queueStep]
      split <;> simp [taken]
  | dequeue =>
      rw [queueStep, taken]
      split
      · next msg queue hdeq => simp [hdeq]
      · next queue hdeq => simp [hdeq]

/-- What was sent stays where it is. -/
theorem getElem?_sent_append {α : Type*} {sent more : List α} {j : ℕ} {e : α}
    (h : sent[j]? = some e) : (sent ++ more)[j]? = some e := by
  rw [List.getElem?_append_left (List.getElem?_eq_some_iff.mp h).1]
  exact h

/-- There are no more numbers remembered than messages delivered. -/
theorem Network.Invariant.card_seen_le {capacities : σ → ℕ} {maxSize : ℕ} {s : Network σ}
    (hs : s.Invariant capacities maxSize) : s.seen.seen.card ≤ s.delivered.card := by
  refine Finset.card_le_card_of_surjOn (fun j => (s.sent[j]?.map (·.2.sequence)).getD 0) ?_
  intro x hx
  obtain ⟨j, hj, sender, msg, hsent, hseq⟩ := hs.seen x hx
  exact ⟨j, hj, by simp [hsent, hseq]⟩

/-- A call of a sending node keeps the invariant. -/
theorem Network.Invariant.call {capacities : σ → ℕ} {maxSize : ℕ} {s : Network σ}
    (hs : s.Invariant capacities maxSize) (sender : σ) (call : QueueCall) :
    (netStep s (.call sender call)).Invariant capacities maxSize where
  senders a := by
    by_cases ha : a = sender
    · subst ha
      simpa [netStep] using (hs.senders a).step call
    · simpa [netStep, ha] using hs.senders a
  sent a := by
    rw [netStep, List.filter_append, List.map_append, hs.sent a]
    by_cases ha : a = sender
    · subst ha
      simp [queueStep_dequeued, List.filter_map, Function.comp_def]
    · simp [ha, Ne.symm ha, List.filter_map, Function.comp_def]
  capacity := hs.capacity
  delivered j hj := by
    have hlt := hs.delivered j hj
    rw [netStep, List.length_append]
    omega
  seen x hx := by
    obtain ⟨j, hj, a, msg, hsent, hseq⟩ := hs.seen x hx
    exact ⟨j, hj, a, msg, getElem?_sent_append hsent, hseq⟩
  remembered hroom j hj a msg hsent := by
    rw [netStep, List.getElem?_append_left (hs.delivered j hj)] at hsent
    exact hs.remembered hroom j hj a msg hsent

/-- The delivery of a sent message keeps the invariant. -/
theorem Network.Invariant.deliver {capacities : σ → ℕ} {maxSize : ℕ} {s : Network σ}
    (hs : s.Invariant capacities maxSize) {k : ℕ} {sender : σ} {msg : GossipMessage}
    (hk : s.sent[k]? = some (sender, msg)) (order : IterOrder) :
    Network.Invariant capacities maxSize
      { s with
        seen := (s.seen.checkAndMark order msg.sequence).2
        delivered := insert k s.delivered } where
  senders := hs.senders
  sent := hs.sent
  capacity := (checkAndMark_maxSize ..).trans hs.capacity
  delivered := Finset.forall_mem_insert _ _ _ |>.mpr
    ⟨(List.getElem?_eq_some_iff.mp hk).1, hs.delivered⟩
  seen x hx := by
    rcases mem_checkAndMark hx with rfl | hold
    · exact ⟨k, Finset.mem_insert_self .., sender, msg, hk, rfl⟩
    · obtain ⟨j, hj, hfound⟩ := hs.seen x hold
      exact ⟨j, Finset.mem_insert_of_mem hj, hfound⟩
  remembered hroom j hj a msg' hsent := by
    have hremembered := hs.remembered
      ((Finset.card_le_card (Finset.subset_insert k s.delivered)).trans hroom)
    by_cases hmem : msg.sequence ∈ s.seen.seen
    · -- the number is in the set, which stays as it is
      rw [checkAndMark_of_mem hmem]
      rcases Finset.mem_insert.mp hj with rfl | hj
      · obtain ⟨-, rfl⟩ : sender = a ∧ msg = msg' := by simpa using hk.symm.trans hsent
        exact hmem
      · exact hremembered j hj a msg' hsent
    · -- the message is delivered for the first time, and there is room for its number
      have hfirst : k ∉ s.delivered := fun hdelivered =>
        hmem (hremembered k hdelivered sender msg hk)
      rw [Finset.card_insert_of_notMem hfirst] at hroom
      have hcard := hs.card_seen_le
      rw [checkAndMark_of_room hmem (by rw [hs.capacity]; omega), Finset.mem_insert]
      rcases Finset.mem_insert.mp hj with rfl | hj
      · obtain ⟨-, rfl⟩ : sender = a ∧ msg = msg' := by simpa using hk.symm.trans hsent
        exact Or.inl rfl
      · exact Or.inr (hremembered j hj a msg' hsent)

/-- **The step**: every event keeps the invariant. -/
theorem Network.Invariant.step {capacities : σ → ℕ} {maxSize : ℕ} {s : Network σ}
    (hs : s.Invariant capacities maxSize) (e : NetEvent σ) :
    (netStep s e).Invariant capacities maxSize := by
  cases e with
  | call sender call => exact hs.call sender call
  | deliver k order =>
      rw [netStep]
      split
      · exact hs
      · next sender msg hk => exact hs.deliver hk order

/-- The invariant holds before every event of a run. -/
theorem network_invariant (capacities : σ → ℕ) (maxSize : ℕ) (events : List (NetEvent σ)) :
    ∀ v ∈ Runs.visits netStep (.new capacities maxSize) events,
      v.1.Invariant capacities maxSize :=
  fun v hv => (Runs.invariant netStep (G := fun _ _ => True) (fun _ e hs _ => hs.step e)
    (Network.new_invariant capacities maxSize) (fun _ _ => trivial) v hv).1

/-- **One sender**: two messages that a node sent have different numbers, while it has
accepted at most `2^64` of them. A clash is one between two nodes. -/
theorem sequence_ne_of_same_sender {capacities : σ → ℕ} {maxSize : ℕ} {s : Network σ}
    (hs : s.Invariant capacities maxSize) {a : σ}
    (hfew : (s.senders a).accepted.length ≤ 2 ^ 64)
    {j k : ℕ} (hjk : j < k) {msg msg' : GossipMessage} (hj : s.sent[j]? = some (a, msg))
    (hk : s.sent[k]? = some (a, msg')) : msg.sequence ≠ msg'.sequence := by
  have haccepted := ((hs.senders a).pairwise hfew).imp fun hlt => UInt64.ne_of_lt hlt
  obtain ⟨pending, -, -, hperm⟩ := (hs.senders a).pending
  -- the numbers of the accepted messages, and so of the dequeued ones, are distinct
  have hnodup : ((s.senders a).dequeued.map GossipMessage.sequence).Nodup := by
    have hall := (hperm.map GossipMessage.sequence).nodup_iff.mpr (by rwa [List.map_map])
    rw [List.map_append] at hall
    exact hall.of_append_left
  rw [← hs.sent a, List.map_map, List.Nodup, List.pairwise_map, List.pairwise_filter] at hnodup
  obtain ⟨hjlt, hjget⟩ := List.getElem?_eq_some_iff.mp hj
  obtain ⟨hklt, hkget⟩ := List.getElem?_eq_some_iff.mp hk
  have hne := List.pairwise_iff_getElem.mp hnodup j k hjlt hklt hjk
  rw [hjget, hkget] at hne
  exact hne (by simp) (by simp)

/-- One event: a first delivery is reported as new when its number is apart from those of
the messages that came before. -/
theorem firstDeliveryNew_of_apart {capacities : σ → ℕ} {maxSize : ℕ} {s : Network σ}
    (hs : s.Invariant capacities maxSize) {e : NetEvent σ} (hapart : Apart s e) :
    FirstDeliveryNew s e := by
  cases e with
  | call sender call => trivial
  | deliver k order =>
      intro sender msg hk hfirst
      rw [checkAndMark_fst, Bool.not_eq_true', SeenMessages.contains, decide_eq_false_iff_not]
      intro hmem
      obtain ⟨j, hj, sender', msg', hsent, hseq⟩ := hs.seen msg.sequence hmem
      by_cases hother : sender' ≠ sender ∨ 2 ^ 64 < (s.senders sender).accepted.length
      · exact hapart sender msg hk hfirst j hj sender' msg' hsent hother hseq
      · -- two messages of one node, which its queue has numbered differently
        rw [not_or, not_not, not_lt] at hother
        obtain ⟨rfl, hfew⟩ := hother
        have hjk : j ≠ k := fun heq => hfirst (heq ▸ hj)
        rcases hjk.lt_or_gt with hlt | hgt
        · exact sequence_ne_of_same_sender hs hfew hlt hsent hk hseq
        · exact sequence_ne_of_same_sender hs hfew hgt hk hsent hseq.symm

/-- One event: as long as nothing is forgotten, only then. -/
theorem apart_of_firstDeliveryNew {capacities : σ → ℕ} {maxSize : ℕ} {s : Network σ}
    (hs : s.Invariant capacities maxSize) (hroom : s.delivered.card ≤ maxSize)
    {e : NetEvent σ} (hnew : FirstDeliveryNew s e) : Apart s e := by
  cases e with
  | call sender call => trivial
  | deliver k order =>
      intro sender msg hk hfirst j hj sender' msg' hsent _ hseq
      have hmem := hs.remembered hroom j hj sender' msg' hsent
      have hreport := hnew sender msg hk hfirst
      rw [checkAndMark_fst, SeenMessages.contains, ← hseq, decide_eq_true hmem] at hreport
      exact absurd hreport (by decide)

/-- **Messages of several nodes**: whatever the number of nodes, their queues, the capacity
of the set and its iteration orders, the first delivery of every message of a run is reported
as new when every message is delivered first after messages with other numbers only. Only
messages of other nodes have to be looked at, while a node has accepted at most `2^64`
messages. As long as no more messages were delivered than the set has room for, this is also
necessary. -/
theorem first_delivery_new (capacities : σ → ℕ) (maxSize : ℕ) (events : List (NetEvent σ)) :
    let visits := Runs.visits netStep (.new capacities maxSize) events
    ((∀ v ∈ visits, Apart v.1 v.2) → ∀ v ∈ visits, FirstDeliveryNew v.1 v.2) ∧
      ((∀ v ∈ visits, v.1.delivered.card ≤ maxSize) →
        (∀ v ∈ visits, FirstDeliveryNew v.1 v.2) → ∀ v ∈ visits, Apart v.1 v.2) := by
  intro visits
  have hinvariant := network_invariant capacities maxSize events
  constructor
  · intro hapart v hv
    exact firstDeliveryNew_of_apart (hinvariant v hv) (hapart v hv)
  · intro hroom hnew v hv
    exact apart_of_firstDeliveryNew (hinvariant v hv) (hroom v hv) (hnew v hv)

/-- Two nodes each send their first message, and both messages are delivered. -/
def firstMessages : List (NetEvent Bool) :=
  [.call false joinCall, .call true joinCall, .call false .dequeue, .call true .dequeue,
    .deliver 0 .ascending]

/-- The first message of the second node is taken for the first message of the first. -/
theorem first_message_dropped :
    ¬ ∀ v ∈ Runs.visits netStep (.new (fun _ : Bool => 1) 2)
      (firstMessages ++ [.deliver 1 .ascending]), FirstDeliveryNew v.1 v.2 := by
  intro h
  have hlast := h _ (Runs.mem_visits_concat netStep _ firstMessages (.deliver 1 .ascending))
  have hreport := hlast true _ rfl (by decide)
  exact absurd hreport (by decide)

end VaultKeeper
