import Mathlib.Data.Finset.Sort
import VaultKeeper.LevelQueue
import VaultKeeper.Message
import VaultKeeper.Runs

/-!
# Gossip

`p2p/src/gossip.rs`: the queue of outgoing messages with its four priorities, and the set
of message numbers that a receiving node has seen. The clock is an argument of
`GossipQueue.enqueue`. The four deques are kept by priority in a hash map that is never
given another key, so they are a function of the priority here.

The number of a message is a `u64` counter, which starts over after `2^64` messages.

## Main results

* `QueueRun.Invariant.step`: what every call on a queue keeps.
* `gossipQueue_stable`: a queue is bounded, stable, and loses and repeats nothing; its
  numbers are in the order of acceptance for the first `2^64` messages.
-/

namespace VaultKeeper

/-- Message priority levels for weighted scheduling. -/
inductive MessagePriority
  | low
  | normal
  | high
  | critical

/-- The discriminant of a priority. -/
def MessagePriority.rank : MessagePriority → ℕ
  | .low => 0
  | .normal => 1
  | .high => 2
  | .critical => 3

theorem MessagePriority.rank_injective : Function.Injective MessagePriority.rank := by
  intro a b h
  cases a <;> cases b <;> simp_all [MessagePriority.rank]

instance : LinearOrder MessagePriority :=
  LinearOrder.lift' MessagePriority.rank MessagePriority.rank_injective

/-- All priorities, the highest first. -/
def MessagePriority.levels : List MessagePriority :=
  [.critical, .high, .normal, .low]

theorem MessagePriority.levels_descending : LevelQueue.Descending MessagePriority.levels where
  sorted := by decide
  complete i := by cases i <;> simp [MessagePriority.levels]

open MessagePriority (levels levels_descending)

/-- GossipSub message queue with priority support. -/
structure GossipQueue where
  queues : MessagePriority → List GossipMessage
  maxQueueSize : ℕ
  sequenceCounter : UInt64

namespace GossipQueue

def new (maxQueueSize : ℕ) : GossipQueue where
  queues _ := []
  maxQueueSize := maxQueueSize
  sequenceCounter := 0

/-- Get total queue size. -/
def len (q : GossipQueue) : ℕ :=
  (levels.map fun p => (q.queues p).length).sum

/-- The message that is put in the queue, with the next number. -/
def gossipMsg (q : GossipQueue) (now : UInt64) (peerId : String) (message : P2pMessage) :
    GossipMessage where
  senderPeerId := peerId
  message := message
  timestamp := now
  sequence := q.sequenceCounter

/-- Enqueue a message with priority. -/
def enqueue (q : GossipQueue) (now : UInt64) (priority : MessagePriority) (peerId : String)
    (message : P2pMessage) : Except String Unit × GossipQueue :=
  if q.maxQueueSize ≤ q.len then
    (.error ("Gossip queue full (" ++ toString q.len ++ " messages)"), q)
  else
    (.ok (),
      { q with
        queues := LevelQueue.push q.queues priority (q.gossipMsg now peerId message)
        sequenceCounter := q.sequenceCounter + 1 })

/-- Dequeue next message (highest priority first). -/
def dequeue (q : GossipQueue) : Option GossipMessage × GossipQueue :=
  match LevelQueue.pop q.queues levels with
  | none => (none, q)
  | some (msg, queues) => (some msg, { q with queues := queues })

end GossipQueue

/-! ### What a call returns -/

theorem len_eq {q : GossipQueue} : q.len = (levels.flatMap q.queues).length := by
  rw [List.length_flatMap, GossipQueue.len]

/-- A queue below its capacity takes the message. -/
theorem enqueue_of_lt {q : GossipQueue} (h : q.len < q.maxQueueSize) (now : UInt64)
    (priority : MessagePriority) (peerId : String) (message : P2pMessage) :
    q.enqueue now priority peerId message = (.ok (),
      { q with
        queues := LevelQueue.push q.queues priority (q.gossipMsg now peerId message)
        sequenceCounter := q.sequenceCounter + 1 }) :=
  if_neg h.not_ge

/-- A full queue stays as it is. -/
theorem enqueue_of_le {q : GossipQueue} (h : q.maxQueueSize ≤ q.len) (now : UInt64)
    (priority : MessagePriority) (peerId : String) (message : P2pMessage) :
    q.enqueue now priority peerId message =
      (.error ("Gossip queue full (" ++ toString q.len ++ " messages)"), q) :=
  if_pos h

/-- A message that is dequeued was taken from a level, and nothing else changes. -/
theorem dequeue_eq_some {q q' : GossipQueue} {msg : GossipMessage}
    (h : q.dequeue = (some msg, q')) :
    ∃ queues, LevelQueue.pop q.queues levels = some (msg, queues) ∧
      q' = { q with queues := queues } := by
  rw [GossipQueue.dequeue] at h
  split at h
  · simp at h
  · next msg' queues hpop =>
    obtain ⟨rfl, rfl⟩ : msg' = msg ∧ { q with queues := queues } = q' := by simpa using h
    exact ⟨queues, hpop, rfl⟩

/-- Nothing is dequeued exactly from an empty queue. -/
theorem dequeue_fst_eq_none_iff {q : GossipQueue} : q.dequeue.1 = none ↔ q.len = 0 := by
  have hpop : LevelQueue.pop q.queues levels = none ↔ q.len = 0 := by
    rw [LevelQueue.pop_eq_none_iff, len_eq, List.length_eq_zero_iff, List.flatMap_eq_nil_iff]
  rw [← hpop, GossipQueue.dequeue]
  split <;> simp_all

/-- When there is nothing to dequeue nothing changes. -/
theorem dequeue_eq_none {q q' : GossipQueue} (h : q.dequeue = (none, q')) : q' = q := by
  rw [GossipQueue.dequeue] at h
  split at h
  · exact (congrArg Prod.snd h).symm
  · simp at h

/-! ### Runs of one queue -/

/-- A call on a queue. -/
inductive QueueCall
  | enqueue (now : UInt64) (priority : MessagePriority) (peerId : String) (message : P2pMessage)
  | dequeue

/-- A queue with the messages it has accepted and those that were taken out of it, both in
order. -/
structure QueueRun where
  queue : GossipQueue
  accepted : List (MessagePriority × GossipMessage)
  dequeued : List GossipMessage

def QueueRun.new (maxQueueSize : ℕ) : QueueRun where
  queue := .new maxQueueSize
  accepted := []
  dequeued := []

/-- One call. -/
def queueStep (s : QueueRun) : QueueCall → QueueRun
  | .enqueue now priority peerId message =>
      match s.queue.enqueue now priority peerId message with
      | (.ok (), queue) =>
          { s with
            queue := queue
            accepted := s.accepted ++ [(priority, s.queue.gossipMsg now peerId message)] }
      | (.error _, queue) => { s with queue := queue }
  | .dequeue =>
      match s.queue.dequeue with
      | (some msg, queue) => { s with queue := queue, dequeued := s.dequeued ++ [msg] }
      | (none, queue) => { s with queue := queue }

/-- What holds between calls: the levels hold accepted messages in the order in which they
were accepted, all accepted messages are queued or dequeued, and the message accepted
after `k` others has number `k`, up to the range of `u64`. -/
structure QueueRun.Invariant (capacity : ℕ) (s : QueueRun) : Prop where
  maxQueueSize : s.queue.maxQueueSize = capacity
  len_le : s.queue.len ≤ capacity
  pending : ∃ pending, LevelQueue.Represents s.queue.queues pending ∧
    pending.Sublist s.accepted ∧
    (s.dequeued ++ pending.map Prod.snd).Perm (s.accepted.map Prod.snd)
  sequences : s.accepted.map (fun e => e.2.sequence) =
    (List.range s.accepted.length).map UInt64.ofNat
  counter : s.queue.sequenceCounter = UInt64.ofNat s.accepted.length

theorem QueueRun.new_invariant (capacity : ℕ) : (QueueRun.new capacity).Invariant capacity where
  maxQueueSize := rfl
  len_le := Nat.zero_le capacity
  pending := ⟨[], LevelQueue.represents_empty, List.Sublist.refl _, List.Perm.refl _⟩
  sequences := rfl
  counter := rfl

theorem QueueRun.Invariant.enqueue {capacity : ℕ} {s : QueueRun} (hs : s.Invariant capacity)
    (hlt : s.queue.len < s.queue.maxQueueSize) (priority : MessagePriority)
    {msg : GossipMessage} (hseq : msg.sequence = s.queue.sequenceCounter) :
    QueueRun.Invariant capacity
      { queue :=
          { s.queue with
            queues := LevelQueue.push s.queue.queues priority msg
            sequenceCounter := s.queue.sequenceCounter + 1 }
        accepted := s.accepted ++ [(priority, msg)]
        dequeued := s.dequeued } := by
  obtain ⟨pending, hpending, hsub, hperm⟩ := hs.pending
  have hpush := hpending.push priority msg
  refine ⟨hs.maxQueueSize, ?_, ⟨_, hpush, hsub.append_right _, ?_⟩, ?_, ?_⟩
  · have hlen := (hpending.perm levels_descending).length_eq
    have hcap := hs.maxQueueSize
    rw [len_eq] at hlt ⊢
    rw [(hpush.perm levels_descending).length_eq]
    simp only [List.length_map, List.length_append, List.length_singleton] at hlen ⊢
    omega
  · rw [List.map_append, List.map_append, ← List.append_assoc]
    exact hperm.append_right _
  · rw [List.map_append, hs.sequences, List.length_append, List.length_singleton,
      List.range_succ, List.map_append]
    simp [hseq, hs.counter]
  · rw [List.length_append, List.length_singleton, UInt64.ofNat_add]
    exact congrArg (· + 1) hs.counter

theorem QueueRun.Invariant.dequeue {capacity : ℕ} {s : QueueRun} (hs : s.Invariant capacity)
    {msg : GossipMessage} {queues : MessagePriority → List GossipMessage}
    (hpop : LevelQueue.pop s.queue.queues levels = some (msg, queues)) :
    QueueRun.Invariant capacity
      { queue := { s.queue with queues := queues }
        accepted := s.accepted
        dequeued := s.dequeued ++ [msg] } := by
  obtain ⟨pending, hpending, hsub, hperm⟩ := hs.pending
  obtain ⟨before, i, after, rfl, -, -, -, hrest⟩ := hpending.pop levels_descending hpop
  have hless : (before ++ after).Sublist (before ++ (i, msg) :: after) :=
    (List.Sublist.refl before).append (List.sublist_cons_self _ _)
  refine ⟨hs.maxQueueSize, ?_, ⟨_, hrest, hless.trans hsub, ?_⟩, hs.sequences, hs.counter⟩
  · have hlen := hs.len_le
    rw [len_eq, (hpending.perm levels_descending).length_eq] at hlen
    rw [len_eq, (hrest.perm levels_descending).length_eq]
    exact ((hless.map Prod.snd).length_le).trans hlen
  · refine List.Perm.trans ?_ hperm
    rw [List.append_assoc, List.singleton_append, List.map_append, List.map_append,
      List.map_cons]
    exact List.perm_middle.symm.append_left s.dequeued

/-- **The step**: every call keeps the invariant. -/
theorem QueueRun.Invariant.step {capacity : ℕ} {s : QueueRun} (hs : s.Invariant capacity)
    (call : QueueCall) : (queueStep s call).Invariant capacity := by
  cases call with
  | enqueue now priority peerId message =>
      rcases Nat.lt_or_ge s.queue.len s.queue.maxQueueSize with hlt | hle
      · rw [queueStep, enqueue_of_lt hlt]
        exact hs.enqueue hlt priority rfl
      · rw [queueStep, enqueue_of_le hle]
        exact hs
  | dequeue =>
      rw [queueStep]
      split
      · next msg queue hdeq =>
        obtain ⟨queues, hpop, rfl⟩ := dequeue_eq_some hdeq
        exact hs.dequeue hpop
      · next queue hdeq =>
        rw [dequeue_eq_none hdeq]
        exact hs

/-- The invariant holds after every run. -/
theorem queueRun_invariant (capacity : ℕ) (calls : List QueueCall) :
    (calls.foldl queueStep (.new capacity)).Invariant capacity :=
  Runs.invariant_foldl queueStep (G := fun _ _ => True) (fun _ call hs _ => hs.step call)
    (QueueRun.new_invariant capacity) fun _ _ => trivial

/-! ### A bounded stable priority queue -/

/-- The first `2^64` numbers of a counter are in order. -/
theorem pairwise_lt_counter {n : ℕ} (h : n ≤ 2 ^ 64) :
    ((List.range n).map UInt64.ofNat).Pairwise (· < ·) := by
  rw [List.pairwise_map]
  refine List.pairwise_lt_range.imp_of_mem fun {i j} hi hj hij => ?_
  have hj := List.mem_range.mp hj
  have hsize : UInt64.size = 2 ^ 64 := rfl
  rw [UInt64.lt_iff_toNat_lt, UInt64.toNat_ofNat_of_lt' (by omega),
    UInt64.toNat_ofNat_of_lt' (by omega)]
  exact hij

/-- The numbers of accepted messages are in order while they are in the range of `u64`. -/
theorem QueueRun.Invariant.pairwise {capacity : ℕ} {s : QueueRun} (hs : s.Invariant capacity)
    (h : s.accepted.length ≤ 2 ^ 64) :
    (s.accepted.map fun e => e.2.sequence).Pairwise (· < ·) := by
  rw [hs.sequences]
  exact pairwise_lt_counter h

/-- What is dequeued is the front of a level with none above it; the queued messages of the
level were accepted in the order in which they stand. -/
theorem QueueRun.Invariant.highest {capacity : ℕ} {s : QueueRun} (hs : s.Invariant capacity)
    {msg : GossipMessage} {queue : GossipQueue} (hdeq : s.queue.dequeue = (some msg, queue)) :
    ∃ priority rest, s.queue.queues priority = msg :: rest ∧
      (∀ other, s.queue.queues other ≠ [] → other ≤ priority) ∧
      ((msg :: rest).map (Prod.mk priority)).Sublist s.accepted := by
  obtain ⟨queues, hpop, -⟩ := dequeue_eq_some hdeq
  obtain ⟨pending, hpending, hsub, -⟩ := hs.pending
  obtain ⟨before, i, after, rfl, hbefore, hafter, hlevel, -⟩ :=
    hpending.pop levels_descending hpop
  refine ⟨i, _, hlevel, fun other hother => ?_, ?_⟩
  · obtain ⟨m, hm⟩ := List.exists_mem_of_ne_nil _ hother
    have hmem := hpending.mem_iff.mp hm
    rw [List.mem_append, List.mem_cons] at hmem
    rcases hmem with hmem | heq | hmem
    · exact (hbefore _ hmem).le
    · exact (congrArg Prod.fst heq).le
    · exact hafter _ hmem
  · rw [← hlevel]
    exact (hpending.sublist i).trans hsub

/-- **A bounded stable priority queue**: for every capacity and all calls on a new queue, the
length stays within the capacity; a message is accepted exactly below it, and a refused one
changes nothing; unless the queue is empty a message is dequeued, of the highest priority and,
of the queued messages of this priority, the one accepted first; and the accepted messages are
those dequeued and those still queued. Numbers are strictly increasing, and the number of what
is dequeued is the smallest of its priority, as long as at most `2^64` messages were
accepted. -/
theorem gossipQueue_stable (capacity : ℕ) (calls : List QueueCall) :
    let s := calls.foldl queueStep (.new capacity)
    s.queue.len ≤ capacity ∧
      (∀ now priority peerId message,
        ((s.queue.enqueue now priority peerId message).1 = .ok () ↔ s.queue.len < capacity) ∧
        ((s.queue.enqueue now priority peerId message).1 ≠ .ok () →
          (s.queue.enqueue now priority peerId message).2 = s.queue)) ∧
      (s.accepted.length ≤ 2 ^ 64 →
        (s.accepted.map fun e => e.2.sequence).Pairwise (· < ·)) ∧
      (s.queue.dequeue.1 = none ↔ s.queue.len = 0) ∧
      (∀ msg queue, s.queue.dequeue = (some msg, queue) →
        ∃ priority rest, s.queue.queues priority = msg :: rest ∧
          (∀ other, s.queue.queues other ≠ [] → other ≤ priority) ∧
          ((msg :: rest).map (Prod.mk priority)).Sublist s.accepted ∧
          (s.accepted.length ≤ 2 ^ 64 → ∀ m ∈ rest, msg.sequence < m.sequence)) ∧
      (s.dequeued ++ levels.flatMap s.queue.queues).Perm (s.accepted.map Prod.snd) := by
  intro s
  have hs : s.Invariant capacity := queueRun_invariant capacity calls
  refine ⟨hs.len_le, fun now priority peerId message => ?_, hs.pairwise,
    dequeue_fst_eq_none_iff, fun msg queue hdeq => ?_, ?_⟩
  · have hcap := hs.maxQueueSize
    rcases Nat.lt_or_ge s.queue.len s.queue.maxQueueSize with hlt | hle
    · rw [enqueue_of_lt hlt]
      exact ⟨iff_of_true rfl (hcap ▸ hlt), fun h => absurd rfl h⟩
    · rw [enqueue_of_le hle]
      exact ⟨iff_of_false (by simp) (hcap ▸ hle.not_gt), fun _ => rfl⟩
  · obtain ⟨priority, rest, hlevel, hhighest, hsub⟩ := hs.highest hdeq
    refine ⟨priority, rest, hlevel, hhighest, hsub, fun hfew => ?_⟩
    have hsorted := (hs.pairwise hfew).sublist (hsub.map fun e => e.2.sequence)
    rw [List.map_cons, List.map_cons, List.pairwise_cons] at hsorted
    intro m hm
    exact hsorted.1 _ (by simpa using ⟨m, hm, rfl⟩)
  · obtain ⟨pending, hpending, -, hperm⟩ := hs.pending
    exact ((hpending.perm levels_descending).append_left _).trans hperm

/-! ### The counter starts over -/

/-- A node without peers announces itself. -/
def joinCall : QueueCall :=
  .enqueue 0 .normal "p" (.nodeJoin "n" "p" 0)

/-- Messages that are put in the queue and taken out again, one after another. -/
def relayed (n : ℕ) : List QueueCall :=
  (List.replicate n [joinCall, .dequeue]).flatten

/-- One message through an empty queue. -/
theorem relay_one {s : QueueRun} (hs : s.Invariant 1) (hempty : ∀ p, s.queue.queues p = []) :
    let t := queueStep (queueStep s joinCall) .dequeue
    (∀ p, t.queue.queues p = []) ∧ t.accepted.length = s.accepted.length + 1 := by
  have hlen : s.queue.len = 0 := by
    simp [GossipQueue.len, levels, hempty]
  have hlt : s.queue.len < s.queue.maxQueueSize := by
    rw [hlen, hs.maxQueueSize]
    exact Nat.one_pos
  have hpop := LevelQueue.pop_push_of_empty hempty (levels_descending.complete .normal)
    (s.queue.gossipMsg 0 "p" (.nodeJoin "n" "p" 0))
  simp only [joinCall, queueStep, enqueue_of_lt hlt, GossipQueue.dequeue, hpop]
  exact ⟨hempty, by simp⟩

theorem relayed_accepted (n : ℕ) {s : QueueRun} (hs : s.Invariant 1)
    (hempty : ∀ p, s.queue.queues p = []) :
    ((relayed n).foldl queueStep s).accepted.length = s.accepted.length + n := by
  induction n generalizing s with
  | zero => rfl
  | succ n ih =>
      obtain ⟨hnext, hlen⟩ := relay_one hs hempty
      rw [relayed, List.replicate_succ, List.flatten_cons, List.foldl_append]
      exact (ih ((hs.step joinCall).step .dequeue) hnext).trans (by omega)

/-- Number 0 is given to two of `2^64 + 1` messages that pass through a queue for one. -/
theorem gossipQueue_counter_wraps :
    ¬ (((relayed (2 ^ 64 + 1)).foldl queueStep (.new 1)).accepted.map
      fun e => e.2.sequence).Pairwise (· < ·) := by
  have hs := queueRun_invariant 1 (relayed (2 ^ 64 + 1))
  have hlen := relayed_accepted (2 ^ 64 + 1) (QueueRun.new_invariant 1) fun _ => rfl
  rw [hs.sequences, hlen, List.pairwise_map]
  intro h
  have := List.pairwise_iff_getElem.mp h 0 (2 ^ 64) (by simp) (by simp [QueueRun.new]) (by decide)
  rw [List.getElem_range, List.getElem_range] at this
  exact absurd this (by decide)

/-! ### Seen messages -/

/-- An order in which a hash set is iterated over: every element, once. The order of a
`HashSet` is arbitrary, so every call that iterates has one as an argument. -/
structure IterOrder where
  list : Finset UInt64 → List UInt64
  nodup : ∀ s, (list s).Nodup
  mem_list : ∀ s x, x ∈ list s ↔ x ∈ s

instance uint64LeTrans : IsTrans UInt64 (· ≤ ·) := ⟨fun _ _ _ => UInt64.le_trans⟩

/-- The order of the numbers. -/
def IterOrder.ascending : IterOrder where
  list s := s.sort (· ≤ ·)
  nodup s := Finset.sort_nodup s _
  mem_list _ _ := Finset.mem_sort _

/-- Tracks seen messages to prevent duplicate processing, by their numbers. -/
structure SeenMessages where
  seen : Finset UInt64
  maxSize : ℕ

namespace SeenMessages

def new (maxSize : ℕ) : SeenMessages where
  seen := ∅
  maxSize := maxSize

def contains (m : SeenMessages) (seq : UInt64) : Bool :=
  decide (seq ∈ m.seen)

/-- The numbers that stay when room is made: of a full set, all but the first half of the
capacity in the order of the iteration. -/
def retained (m : SeenMessages) (order : IterOrder) : Finset UInt64 :=
  if m.maxSize ≤ m.seen.card then ((order.list m.seen).drop (m.maxSize / 2)).toFinset
  else m.seen

/-- Check if message was already seen. If not, mark it as seen. Returns whether the message
is new. -/
def checkAndMark (m : SeenMessages) (order : IterOrder) (seq : UInt64) : Bool × SeenMessages :=
  if m.contains seq then (false, m)
  else (true, { m with seen := insert seq (m.retained order) })

end SeenMessages

/-- A number is new when it is not remembered. -/
theorem checkAndMark_fst (m : SeenMessages) (order : IterOrder) (seq : UInt64) :
    (m.checkAndMark order seq).1 = !m.contains seq := by
  rw [SeenMessages.checkAndMark]
  cases m.contains seq <;> rfl

@[simp] theorem checkAndMark_maxSize (m : SeenMessages) (order : IterOrder) (seq : UInt64) :
    (m.checkAndMark order seq).2.maxSize = m.maxSize := by
  rw [SeenMessages.checkAndMark]
  split <;> rfl

/-- A number that is remembered changes nothing. -/
theorem checkAndMark_of_mem {m : SeenMessages} {order : IterOrder} {seq : UInt64}
    (h : seq ∈ m.seen) : m.checkAndMark order seq = (false, m) :=
  if_pos (decide_eq_true h)

/-- Below the capacity a new number is added to the others. -/
theorem checkAndMark_of_room {m : SeenMessages} {order : IterOrder} {seq : UInt64}
    (h : seq ∉ m.seen) (hroom : m.seen.card < m.maxSize) :
    m.checkAndMark order seq = (true, { m with seen := insert seq m.seen }) := by
  rw [SeenMessages.checkAndMark, if_neg (by simpa [SeenMessages.contains] using h),
    SeenMessages.retained, if_neg hroom.not_ge]

/-- What is remembered was remembered before or is the number that was checked. -/
theorem mem_checkAndMark {m : SeenMessages} {order : IterOrder} {seq x : UInt64}
    (h : x ∈ (m.checkAndMark order seq).2.seen) : x = seq ∨ x ∈ m.seen := by
  rw [SeenMessages.checkAndMark] at h
  split at h
  · exact Or.inr h
  · rw [Finset.mem_insert] at h
    refine h.imp_right fun hmem => ?_
    rw [SeenMessages.retained] at hmem
    split at hmem
    · exact (order.mem_list _ _).mp (List.mem_of_mem_drop (List.mem_toFinset.mp hmem))
    · exact hmem

end VaultKeeper
