import VaultKeeper.Gossip
import VaultKeeper.LevelWait

/-!
# Waiting in the Gossip Queue

The priority that `p2p/src/gossip.rs` gives a message, by its kind and the weight of the
subscription, and how long a message that was accepted waits in the queue. Before it go the
queued messages of its priority and above, and those of a higher priority that are accepted
while it waits, and no others. So a higher weight never makes a message wait longer; and the
messages of `p2p/src/node.rs`, which are all sent with the lowest weight, have no one above the
requests for replication, challenges and the ledger, so that these wait for those queued before
them and for nothing that comes later.

A message is told from the others by its number, so the runs are those in which at most `2^64`
messages have been accepted.

## Main results

* `getMessagePriority_mono`: a higher weight gives no lower priority.
* `dequeued_iff_due`: when a message that was accepted is dequeued.
* `dequeued_of_weight_le`: with a higher weight it is dequeued no later.
* `urgent_dequeued_iff`: how long an urgent message of a node waits.
-/

namespace VaultKeeper

open MessagePriority (levels levels_descending)

/-! ### Priorities -/

/-- Determine message priority based on type and subscription weight. -/
def getMessagePriority (message : P2pMessage) (subscriptionWeight : UInt8) : MessagePriority :=
  match message with
  | .heartbeatAck .. => .low
  | .heartbeat .. | .nodeJoin .. => .normal
  | .chunkAnnounce .. | .chunkRequest .. => if 3 ≤ subscriptionWeight then .high else .normal
  | .ledgerSync .. | .ledgerRequest .. => .high
  | .challengeRequest .. | .challengeResponse .. => .high
  | .replicationRequest .. => if 3 ≤ subscriptionWeight then .critical else .high
  | .chunkResponse .. => if 2 ≤ subscriptionWeight then .high else .normal

/-- A higher weight gives no lower priority. -/
theorem getMessagePriority_mono (message : P2pMessage) {w w' : UInt8} (h : w ≤ w') :
    getMessagePriority message w ≤ getMessagePriority message w' := by
  have hthreshold : ∀ (n : UInt8) {p q : MessagePriority}, p ≤ q →
      (if n ≤ w then q else p) ≤ if n ≤ w' then q else p := by
    intro n p q hle
    by_cases hn : n ≤ w
    · rw [if_pos hn, if_pos (UInt8.le_trans hn h)]
    · rw [if_neg hn]
      split_ifs
      · exact hle
      · exact le_rfl
  cases message with
  | chunkRequest => exact hthreshold 3 (by decide)
  | chunkResponse => exact hthreshold 2 (by decide)
  | chunkAnnounce => exact hthreshold 3 (by decide)
  | replicationRequest => exact hthreshold 3 (by decide)
  | _ => exact le_rfl

/-! ### A message that waits -/

/-- The queued messages of a priority and above. -/
def QueueRun.queuedFrom (s : QueueRun) (i : MessagePriority) : ℕ :=
  ((levels.filter (i ≤ ·)).flatMap s.queue.queues).length

/-- The messages above a priority that were accepted. -/
def QueueRun.acceptedAbove (s : QueueRun) (i : MessagePriority) : ℕ :=
  s.accepted.countP fun e => i < e.1

/-- A message is queued at a priority, with a number of messages that go before it. -/
def QueueRun.Waiting (s : QueueRun) (i : MessagePriority) (msg : GossipMessage) (n : ℕ) : Prop :=
  ∃ before after, LevelQueue.Represents s.queue.queues (before ++ (i, msg) :: after) ∧
    LevelQueue.ahead i before after = n

/-- Whether a call is a dequeue. -/
def QueueCall.isDequeue : QueueCall → Bool
  | .enqueue .. => false
  | .dequeue => true

theorem QueueCall.eq_of_isDequeue {call : QueueCall} (h : call.isDequeue = true) :
    call = .dequeue := by
  cases call with
  | enqueue => cases h
  | dequeue => rfl

variable {capacity : ℕ} {s t : QueueRun} {i : MessagePriority} {msg : GossipMessage} {n : ℕ}

/-- What is not dequeued is queued. -/
theorem QueueRun.Invariant.length_eq (hs : s.Invariant capacity) :
    s.dequeued.length + s.queue.len = s.accepted.length := by
  obtain ⟨pending, hpending, -, hperm⟩ := hs.pending
  have hlength := hperm.length_eq
  rw [List.length_append, List.length_map, List.length_map] at hlength
  rw [len_eq, (hpending.perm levels_descending).length_eq, List.length_map, hlength]

theorem queueStep_enqueue_of_lt (h : s.queue.len < s.queue.maxQueueSize) (now : UInt64)
    (priority : MessagePriority) (peerId : String) (message : P2pMessage) :
    queueStep s (.enqueue now priority peerId message) =
      { queue :=
          { s.queue with
            queues := LevelQueue.push s.queue.queues priority
              (s.queue.gossipMsg now peerId message)
            sequenceCounter := s.queue.sequenceCounter + 1 }
        accepted := s.accepted ++ [(priority, s.queue.gossipMsg now peerId message)]
        dequeued := s.dequeued } := by
  rw [queueStep, enqueue_of_lt h]

theorem queueStep_enqueue_of_le (h : s.queue.maxQueueSize ≤ s.queue.len) (now : UInt64)
    (priority : MessagePriority) (peerId : String) (message : P2pMessage) :
    queueStep s (.enqueue now priority peerId message) = s := by
  rw [queueStep, enqueue_of_le h]

/-- **A call while a message waits**: it leaves when none goes before it and the call is a
dequeue. Otherwise those that go before it are fewer by the one that is dequeued, and more by
the one that is accepted above it. -/
theorem QueueRun.Waiting.step (h : s.Waiting i msg n) (call : QueueCall) :
    (call.isDequeue = true ∧ n = 0 ∧ msg ∈ (queueStep s call).dequeued) ∨
      ¬ (call.isDequeue = true ∧ n = 0) ∧ ∃ n', (queueStep s call).Waiting i msg n' ∧
        n' + call.isDequeue.toNat + s.acceptedAbove i =
          n + (queueStep s call).acceptedAbove i := by
  obtain ⟨before, after, hqueues, rfl⟩ := h
  cases call with
  | enqueue now priority peerId message =>
      refine Or.inr ⟨fun hdeq => (nomatch hdeq.1), ?_⟩
      rcases Nat.lt_or_ge s.queue.len s.queue.maxQueueSize with hlt | hle
      · rw [queueStep_enqueue_of_lt hlt]
        refine ⟨_, ⟨before, after ++ [(priority, s.queue.gossipMsg now peerId message)], ?_, rfl⟩,
          ?_⟩
        · have hpush := hqueues.push priority (s.queue.gossipMsg now peerId message)
          rwa [List.append_assoc, List.cons_append] at hpush
        · simp only [LevelQueue.ahead_arrival, QueueRun.acceptedAbove, List.countP_append,
            List.countP_singleton, QueueCall.isDequeue, Bool.toNat_false, decide_eq_true_eq]
          omega
      · rw [queueStep_enqueue_of_le hle]
        exact ⟨_, ⟨before, after, hqueues, rfl⟩, rfl⟩
  | dequeue =>
      obtain ⟨b, queues, hpop, hcase⟩ := hqueues.pop_ahead levels_descending
      have hdeq : s.queue.dequeue = (some b, { s.queue with queues := queues }) := by
        rw [GossipQueue.dequeue, hpop]
      rw [queueStep, hdeq]
      rcases hcase with ⟨hzero, rfl⟩ | ⟨before', after', hqueues', hahead⟩
      · exact Or.inl ⟨rfl, hzero, by simp⟩
      · refine Or.inr ⟨fun hdue => ?_, _, ⟨before', after', hqueues', rfl⟩, ?_⟩
        · omega
        · rw [hahead]
          rfl

/-- A message that is queued was not dequeued, as long as no number was given twice. -/
theorem QueueRun.Waiting.not_mem_dequeued (h : s.Waiting i msg n) (hs : s.Invariant capacity)
    (hfew : s.accepted.length ≤ 2 ^ 64) : msg ∉ s.dequeued := by
  obtain ⟨before, after, hqueues, -⟩ := h
  obtain ⟨pending, hpending, -, hperm⟩ := hs.pending
  have hqueued : (pending.map Prod.snd).Perm ((before ++ (i, msg) :: after).map Prod.snd) :=
    (hpending.perm levels_descending).symm.trans (hqueues.perm levels_descending)
  have hmem : msg ∈ pending.map Prod.snd := by
    rw [hqueued.mem_iff]
    simp
  have hnodup := ((hperm.map GossipMessage.sequence).nodup_iff.mpr (by
    rw [List.map_map]
    exact (hs.pairwise hfew).imp UInt64.ne_of_lt)).of_map
  exact fun hdeq => (List.nodup_append.mp hnodup).2.2 msg hdeq msg hmem rfl

/-- What was dequeued stays so. -/
theorem dequeued_run (calls : List QueueCall) (h : msg ∈ s.dequeued) :
    msg ∈ (calls.foldl queueStep s).dequeued :=
  Runs.invariant_foldl queueStep (I := fun s => msg ∈ s.dequeued) (G := fun _ _ => True)
    (fun s call hmem _ => by
      cases call with
      | enqueue now priority peerId message =>
          rw [queueStep]
          split <;> exact hmem
      | dequeue =>
          rw [queueStep]
          split
          · exact List.mem_append_left _ hmem
          · exact hmem) h fun _ _ => trivial

/-- The dequeues of a run. -/
def dequeues (calls : List QueueCall) : ℕ :=
  calls.countP QueueCall.isDequeue

theorem dequeues_concat (calls : List QueueCall) (call : QueueCall) :
    dequeues (calls ++ [call]) = dequeues calls + call.isDequeue.toNat := by
  rw [dequeues, List.countP_append, List.countP_singleton, dequeues]
  cases call.isDequeue <;> rfl

/-- A message that waits behind some others is due when there were as many dequeues, and one
more for each message above it that was accepted since. -/
def QueueRun.Due (s : QueueRun) (i : MessagePriority) (n : ℕ) (calls : List QueueCall) : Prop :=
  dequeues calls + s.acceptedAbove i = n + (calls.foldl queueStep s).acceptedAbove i

/-- A message that waits is dequeued when it is due for the first time, and waits until then. -/
theorem QueueRun.Waiting.run (h : s.Waiting i msg n) (calls : List QueueCall) :
    ((∃ earlier, earlier ++ [.dequeue] <+: calls ∧ s.Due i n earlier) ∧
        msg ∈ (calls.foldl queueStep s).dequeued) ∨
      (¬ ∃ earlier, earlier ++ [.dequeue] <+: calls ∧ s.Due i n earlier) ∧
        ∃ n', (calls.foldl queueStep s).Waiting i msg n' ∧
          n' + dequeues calls + s.acceptedAbove i =
            n + (calls.foldl queueStep s).acceptedAbove i := by
  induction calls using List.reverseRecOn with
  | nil =>
      refine Or.inr ⟨?_, n, h, rfl⟩
      rintro ⟨earlier, hprefix, -⟩
      have hlength := hprefix.length_le
      simp at hlength
  | append_singleton calls call ih =>
      rw [List.foldl_append, List.foldl_cons, List.foldl_nil, dequeues_concat]
      rcases ih with ⟨⟨earlier, hprefix, hdue⟩, hmem⟩ | ⟨hnever, n', hwaiting, hcount⟩
      · exact Or.inl ⟨⟨earlier, hprefix.trans (List.prefix_append ..), hdue⟩,
          dequeued_run [call] hmem⟩
      rcases hwaiting.step call with ⟨hcall, rfl, hmem⟩ | ⟨hnot, n'', hwaiting', hcount'⟩
      · -- it is taken now
        obtain rfl := QueueCall.eq_of_isDequeue hcall
        refine Or.inl ⟨⟨calls, List.prefix_rfl, ?_⟩, hmem⟩
        rw [QueueRun.Due]
        omega
      · refine Or.inr ⟨?_, n'', hwaiting', by omega⟩
        rintro ⟨earlier, hprefix, hdue⟩
        rcases List.prefix_concat_iff.mp hprefix with heq | hprefix
        · obtain ⟨rfl, hcall⟩ := List.append_inj' heq rfl
          obtain rfl := (List.cons.inj hcall).1
          rw [QueueRun.Due] at hdue
          exact hnot ⟨rfl, by omega⟩
        · exact hnever ⟨earlier, hprefix, hdue⟩

/-- A message that is accepted waits behind the queued messages of its priority and above. -/
theorem QueueRun.Invariant.waiting (hs : s.Invariant capacity) (hlt : s.queue.len < capacity)
    (now : UInt64) (i : MessagePriority) (peerId : String) (message : P2pMessage) :
    (queueStep s (.enqueue now i peerId message)).Waiting i
      (s.queue.gossipMsg now peerId message) (s.queuedFrom i) := by
  obtain ⟨pending, hpending, -⟩ := hs.pending
  rw [queueStep_enqueue_of_lt (hs.maxQueueSize ▸ hlt)]
  refine ⟨pending, [], hpending.push i _, ?_⟩
  rw [LevelQueue.ahead, hpending.countP_le levels_descending]
  rfl

/-- **How long a message waits**: in every run of a queue, a message that was accepted has been
dequeued exactly when it was due at a dequeue since: when there had been as many dequeues as
messages of its priority and above were queued when it came, and one more for each message of
a higher priority that was accepted in between. -/
theorem dequeued_iff_due (capacity : ℕ) (calls later : List QueueCall) (now : UInt64)
    (i : MessagePriority) (peerId : String) (message : P2pMessage)
    (hlt : (calls.foldl queueStep (.new capacity)).queue.len < capacity)
    (hfew : ((calls ++ .enqueue now i peerId message :: later).foldl queueStep
      (.new capacity)).accepted.length ≤ 2 ^ 64) :
    let s := calls.foldl queueStep (.new capacity)
    let s' := queueStep s (.enqueue now i peerId message)
    s.queue.gossipMsg now peerId message ∈ (later.foldl queueStep s').dequeued ↔
      ∃ earlier, earlier ++ [.dequeue] <+: later ∧ s'.Due i (s.queuedFrom i) earlier := by
  intro s s'
  have hs : s.Invariant capacity := queueRun_invariant capacity calls
  rw [List.foldl_append, List.foldl_cons] at hfew
  rcases (hs.waiting hlt now i peerId message).run later with
    ⟨hdue, hmem⟩ | ⟨hnever, n', hwaiting, -⟩
  · exact iff_of_true hmem hdue
  · have hend : (later.foldl queueStep s').Invariant capacity := by
      have hrun := queueRun_invariant capacity (calls ++ .enqueue now i peerId message :: later)
      rwa [List.foldl_append, List.foldl_cons] at hrun
    exact iff_of_false (hwaiting.not_mem_dequeued hend hfew) hnever

/-- A message for which the queue is empty waits for nothing. -/
theorem dequeued_iff_due_join :
    let s' := queueStep (.new 1) joinCall
    (QueueRun.new 1).queue.gossipMsg 0 "p" (.nodeJoin "n" "p" 0) ∈
        ([joinCall, .dequeue].foldl queueStep s').dequeued ↔
      ∃ earlier, earlier ++ [.dequeue] <+: [joinCall, .dequeue] ∧
        s'.Due .normal ((QueueRun.new 1).queuedFrom .normal) earlier :=
  dequeued_iff_due 1 [] [joinCall, .dequeue] 0 .normal "p" (.nodeJoin "n" "p" 0) (by decide)
    (by decide)

/-! ### A higher weight -/

/-- At a higher priority no more messages are queued. -/
theorem QueueRun.Invariant.queuedFrom_le (hs : s.Invariant capacity) {i' : MessagePriority}
    (hi : i ≤ i') : s.queuedFrom i' ≤ s.queuedFrom i := by
  obtain ⟨pending, hpending, -⟩ := hs.pending
  rw [QueueRun.queuedFrom, QueueRun.queuedFrom, ← hpending.countP_le levels_descending,
    ← hpending.countP_le levels_descending]
  exact List.countP_mono_left fun e _ => by simpa using hi.trans

/-- Unless a queue is empty a dequeue takes a message. -/
theorem length_dequeued_dequeue (s : QueueRun) :
    (queueStep s .dequeue).dequeued.length =
      s.dequeued.length + if s.queue.len = 0 then 0 else 1 := by
  rw [queueStep]
  split
  · next msg queue hdeq =>
    have hne : s.queue.len ≠ 0 := by
      rw [Ne, ← dequeue_fst_eq_none_iff, hdeq]
      simp
    rw [if_neg hne]
    simp
  · next queue hdeq =>
    rw [if_pos (dequeue_fst_eq_none_iff.mp (congrArg Prod.fst hdeq))]
    rfl

/-- Two runs that have accepted the same messages, but one of them with two priorities, and
have dequeued as many. -/
def InStep (i i' : MessagePriority) (msg : GossipMessage)
    (past more : List (MessagePriority × GossipMessage)) (s s' : QueueRun) : Prop :=
  s.accepted = past ++ (i, msg) :: more ∧ s'.accepted = past ++ (i', msg) :: more ∧
    s.dequeued.length = s'.dequeued.length

/-- They stay in step: the priority of a message does not matter for what is accepted. -/
theorem InStep.step {s' : QueueRun} {i' : MessagePriority}
    {past more : List (MessagePriority × GossipMessage)} (h : InStep i i' msg past more s s')
    (hs : s.Invariant capacity) (hs' : s'.Invariant capacity) (call : QueueCall) :
    ∃ more', InStep i i' msg past more' (queueStep s call) (queueStep s' call) := by
  obtain ⟨haccepted, haccepted', hdequeued⟩ := h
  have hlength : s.accepted.length = s'.accepted.length := by
    simp [haccepted, haccepted']
  have hlen : s.queue.len = s'.queue.len := by
    have hall := hs.length_eq
    have hall' := hs'.length_eq
    omega
  cases call with
  | enqueue now priority peerId message =>
      have hcapacity := hs.maxQueueSize.trans hs'.maxQueueSize.symm
      rcases Nat.lt_or_ge s.queue.len s.queue.maxQueueSize with hlt | hle
      · have hmsg : s.queue.gossipMsg now peerId message =
            s'.queue.gossipMsg now peerId message := by
          rw [GossipQueue.gossipMsg, GossipQueue.gossipMsg, hs.counter, hs'.counter, hlength]
        rw [queueStep_enqueue_of_lt hlt,
          queueStep_enqueue_of_lt (hlen ▸ hcapacity ▸ hlt), hmsg]
        refine ⟨more ++ [(priority, s'.queue.gossipMsg now peerId message)], ?_, ?_, hdequeued⟩
        · simp [haccepted]
        · simp [haccepted']
      · rw [queueStep_enqueue_of_le hle, queueStep_enqueue_of_le (hlen ▸ hcapacity ▸ hle)]
        exact ⟨more, haccepted, haccepted', hdequeued⟩
  | dequeue =>
      refine ⟨more, ?_, ?_, ?_⟩
      · rw [← haccepted, queueStep]
        split <;> rfl
      · rw [← haccepted', queueStep]
        split <;> rfl
      · rw [length_dequeued_dequeue, length_dequeued_dequeue, hdequeued, hlen]

/-- So they do in a run. -/
theorem InStep.run {s' : QueueRun} {i' : MessagePriority}
    {past more : List (MessagePriority × GossipMessage)} (h : InStep i i' msg past more s s')
    (hs : s.Invariant capacity) (hs' : s'.Invariant capacity) (calls : List QueueCall) :
    ∃ more', InStep i i' msg past more' (calls.foldl queueStep s) (calls.foldl queueStep s') := by
  induction calls generalizing s s' more with
  | nil => exact ⟨more, h⟩
  | cons call calls ih =>
      obtain ⟨more', hnext⟩ := h.step hs hs' call
      exact ih hnext (hs.step call) (hs'.step call)

/-- A message that is due at a lower priority has been due at a higher one. -/
theorem InStep.due {s' : QueueRun} {i' : MessagePriority} (hi : i ≤ i')
    {past : List (MessagePriority × GossipMessage)} (h : InStep i i' msg past [] s s')
    (hs : s.Invariant capacity) (hs' : s'.Invariant capacity) {n n' : ℕ} (hn : n' ≤ n)
    (hwaiting : s'.Waiting i' msg n') {calls : List QueueCall} (hdue : s.Due i n calls) :
    ∃ earlier, earlier ++ [.dequeue] <+: calls ++ [.dequeue] ∧ s'.Due i' n' earlier := by
  rcases hwaiting.run calls with ⟨⟨earlier, hprefix, hdue'⟩, -⟩ | ⟨-, k, -, hcount⟩
  · exact ⟨earlier, hprefix.trans (List.prefix_append ..), hdue'⟩
  · refine ⟨calls, List.prefix_rfl, ?_⟩
    obtain ⟨more, hend, hend', -⟩ := h.run hs hs' calls
    rw [QueueRun.Due] at hdue ⊢
    simp only [QueueRun.acceptedAbove, h.1, h.2.1, hend, hend', List.countP_append,
      List.countP_cons, List.countP_nil, lt_self_iff_false, decide_false, Bool.false_eq_true,
      if_false] at hdue hcount ⊢
    have hmore : more.countP (fun e => i' < e.1) ≤ more.countP (fun e => i < e.1) :=
      List.countP_mono_left fun e _ => by simpa using hi.trans_lt
    omega

/-- **A higher weight is never slower**: in two runs of a queue that differ in the weight of
the subscription with which one message is sent, what has been dequeued of it with the lower
weight has been dequeued with the higher one, after any calls whatever. -/
theorem dequeued_of_weight_le (capacity : ℕ) (calls later : List QueueCall) (now : UInt64)
    (peerId : String) (message : P2pMessage) {w w' : UInt8} (hw : w ≤ w')
    (hlt : (calls.foldl queueStep (.new capacity)).queue.len < capacity)
    (hfew : ((calls ++ .enqueue now (getMessagePriority message w) peerId message :: later).foldl
      queueStep (.new capacity)).accepted.length ≤ 2 ^ 64) :
    let s := calls.foldl queueStep (.new capacity)
    let sent (w : UInt8) := later.foldl queueStep
      (queueStep s (.enqueue now (getMessagePriority message w) peerId message))
    s.queue.gossipMsg now peerId message ∈ (sent w).dequeued →
      s.queue.gossipMsg now peerId message ∈ (sent w').dequeued := by
  intro s sent hmem
  have hs : s.Invariant capacity := queueRun_invariant capacity calls
  have hi := getMessagePriority_mono message hw
  have hfrom := hs.waiting hlt now (getMessagePriority message w) peerId message
  have hfrom' := hs.waiting hlt now (getMessagePriority message w') peerId message
  have hlt' : s.queue.len < s.queue.maxQueueSize := hs.maxQueueSize ▸ hlt
  rcases hfrom.run later with ⟨⟨earlier, hprefix, hdue⟩, -⟩ | ⟨-, k, hwaiting, -⟩
  swap
  · -- it has not been dequeued with the lower weight
    have hend := queueRun_invariant capacity
      (calls ++ .enqueue now (getMessagePriority message w) peerId message :: later)
    rw [List.foldl_append, List.foldl_cons] at hend hfew
    exact absurd hmem (hwaiting.not_mem_dequeued hend hfew)
  have hstart : InStep (getMessagePriority message w) (getMessagePriority message w')
      (s.queue.gossipMsg now peerId message) s.accepted []
      (queueStep s (.enqueue now (getMessagePriority message w) peerId message))
      (queueStep s (.enqueue now (getMessagePriority message w') peerId message)) := by
    rw [queueStep_enqueue_of_lt hlt', queueStep_enqueue_of_lt hlt']
    exact ⟨rfl, rfl, rfl⟩
  obtain ⟨first, hfirst, hdue'⟩ :=
    hstart.due hi (hs.step _) (hs.step _) (hs.queuedFrom_le hi) hfrom' hdue
  rcases hfrom'.run later with ⟨-, hmem'⟩ | ⟨hnever, -⟩
  · exact hmem'
  · exact absurd ⟨first, hfirst.trans hprefix, hdue'⟩ hnever

/-- A request that leaves second without a subscription leaves by then with the best one. -/
theorem dequeued_of_weight_le_request :
    let message : P2pMessage := .chunkRequest (.new stepDigest [1]) [0]
    let s := queueStep (.new 2) joinCall
    s.queue.gossipMsg 0 "p" message ∈ ([.dequeue, .dequeue].foldl queueStep
      (queueStep s (.enqueue 0 (getMessagePriority message 3) "p" message))).dequeued := by
  intro message s
  exact dequeued_of_weight_le 2 [joinCall] [.dequeue, .dequeue] 0 "p" message
    (w := 1) (by decide) (by decide) (by decide) (List.Mem.tail _ (List.Mem.head _))

/-! ### The messages of a node -/

/-- P2P node handle: the queue of what the node sends. -/
structure P2pNode where
  peerId : String
  gossipQueue : GossipQueue

namespace P2pNode

/-- Create a new P2P node. -/
def new (peerId : String) : P2pNode where
  peerId := peerId
  gossipQueue := .new 10000

/-- Send a message through gossip. -/
def sendGossip (node : P2pNode) (now : UInt64) (message : P2pMessage) :
    Except String Unit × P2pNode :=
  let (result, queue) :=
    node.gossipQueue.enqueue now (getMessagePriority message 1) node.peerId message
  (result, { node with gossipQueue := queue })

end P2pNode

/-- A node sends a message, or one is taken out of its queue. -/
inductive NodeCall
  | sendGossip (now : UInt64) (message : P2pMessage)
  | dequeue

/-- One call on a node. -/
def nodeStep (node : P2pNode) : NodeCall → P2pNode
  | .sendGossip now message => (node.sendGossip now message).2
  | .dequeue => { node with gossipQueue := node.gossipQueue.dequeue.2 }

/-- The call that it makes on the queue of the node. -/
def NodeCall.queueCall (peerId : String) : NodeCall → QueueCall
  | .sendGossip now message => .enqueue now (getMessagePriority message 1) peerId message
  | .dequeue => .dequeue

/-- The queue of a node after some calls, with what it has accepted and what was taken out. -/
def nodeRun (peerId : String) (calls : List NodeCall) : QueueRun :=
  (calls.map (NodeCall.queueCall peerId)).foldl queueStep (.new 10000)

/-- **The queue of a node** is the queue of the calls that it makes. -/
theorem nodeStep_run (peerId : String) (calls : List NodeCall) :
    calls.foldl nodeStep (.new peerId) = ⟨peerId, (nodeRun peerId calls).queue⟩ := by
  induction calls using List.reverseRecOn with
  | nil => rfl
  | append_singleton calls call ih =>
      rw [nodeRun, List.map_append, List.foldl_append, List.foldl_append, ih, List.map_cons,
        List.foldl_cons, List.foldl_cons, List.map_nil, List.foldl_nil, List.foldl_nil, ← nodeRun]
      cases call with
      | sendGossip now message =>
          rw [nodeStep, P2pNode.sendGossip, NodeCall.queueCall, queueStep]
          dsimp only
          split <;> simp_all
      | dequeue =>
          rw [nodeStep, NodeCall.queueCall, queueStep]
          split <;> simp_all

/-- Nothing that a node sends is critical. -/
theorem getMessagePriority_one_le (message : P2pMessage) :
    getMessagePriority message 1 ≤ .high := by
  cases message <;> exact of_decide_eq_true rfl

theorem acceptedAbove_high_nodeRun (peerId : String) (calls : List NodeCall) :
    (nodeRun peerId calls).acceptedAbove .high = 0 := by
  induction calls using List.reverseRecOn with
  | nil => rfl
  | append_singleton calls call ih =>
      rw [nodeRun, List.map_append, List.foldl_append, ← nodeRun]
      cases call with
      | sendGossip now message =>
          rw [List.map_cons, List.foldl_cons, List.map_nil, List.foldl_nil, NodeCall.queueCall,
            queueStep]
          split
          · rw [QueueRun.acceptedAbove, List.countP_append, List.countP_singleton,
              if_neg (by simpa using getMessagePriority_one_le message)]
            exact ih
          · exact ih
      | dequeue =>
          rw [List.map_cons, List.foldl_cons, List.map_nil, List.foldl_nil, NodeCall.queueCall,
            queueStep]
          split <;> exact ih

/-- So the queued messages that go before an urgent one are the urgent ones. -/
theorem queuedFrom_high_nodeRun (peerId : String) (calls : List NodeCall) :
    (nodeRun peerId calls).queuedFrom .high =
      ((nodeRun peerId calls).queue.queues .high).length := by
  have hs : (nodeRun peerId calls).Invariant 10000 := queueRun_invariant 10000 _
  obtain ⟨pending, hpending, hsub, -⟩ := hs.pending
  have hcritical : (nodeRun peerId calls).queue.queues .critical = [] := by
    rw [List.eq_nil_iff_forall_not_mem]
    intro msg hmsg
    have hnone := acceptedAbove_high_nodeRun peerId calls
    rw [QueueRun.acceptedAbove, List.countP_eq_zero] at hnone
    exact hnone _ (hsub.subset (hpending.mem_iff.mp hmsg)) rfl
  have hlevels : levels.filter (MessagePriority.high ≤ ·) = [.critical, .high] := by decide
  rw [QueueRun.queuedFrom, hlevels, List.flatMap_cons, List.flatMap_singleton, hcritical,
    List.nil_append]

/-- Among the calls before the dequeues of a run there are any number of these below all. -/
theorem exists_dequeues_eq_iff (n : ℕ) (calls : List QueueCall) :
    (∃ earlier, earlier ++ [.dequeue] <+: calls ∧ dequeues earlier = n) ↔ n < dequeues calls := by
  induction calls using List.reverseRecOn with
  | nil =>
      refine iff_of_false ?_ (Nat.not_lt_zero n)
      rintro ⟨earlier, hprefix, -⟩
      have hlength := hprefix.length_le
      simp at hlength
  | append_singleton calls call ih =>
      rw [dequeues_concat]
      constructor
      · rintro ⟨earlier, hprefix, rfl⟩
        rcases List.prefix_concat_iff.mp hprefix with heq | hprefix
        · obtain ⟨rfl, hcall⟩ := List.append_inj' heq rfl
          obtain rfl := (List.cons.inj hcall).1
          exact Nat.lt_succ_self _
        · exact Nat.lt_add_right _ (ih.mp ⟨earlier, hprefix, rfl⟩)
      · intro hlt
        rcases Nat.lt_or_ge n (dequeues calls) with hlt' | hge
        · obtain ⟨earlier, hprefix, heq⟩ := ih.mpr hlt'
          exact ⟨earlier, hprefix.trans (List.prefix_append ..), heq⟩
        · cases hcall : call.isDequeue with
          | false =>
              rw [hcall] at hlt
              exact absurd hge (Nat.not_le.mpr hlt)
          | true =>
              rw [hcall, Bool.toNat_true] at hlt
              obtain rfl := QueueCall.eq_of_isDequeue hcall
              exact ⟨calls, List.prefix_rfl, by omega⟩

/-- Nothing is accepted above an urgent message of a node, so it is due after as many dequeues as
were queued from its level. -/
theorem due_high_iff {peerId : String} {calls later : List NodeCall} {now : UInt64}
    {message : P2pMessage} (hurgent : getMessagePriority message 1 = .high)
    {earlier : List QueueCall} (hpre : earlier <+: later.map (NodeCall.queueCall peerId)) :
    (queueStep (nodeRun peerId calls) (.enqueue now .high peerId message)).Due .high
        ((nodeRun peerId calls).queuedFrom .high) earlier ↔
      dequeues earlier = (nodeRun peerId calls).queuedFrom .high := by
  have hsent : queueStep (nodeRun peerId calls) (.enqueue now .high peerId message) =
      nodeRun peerId (calls ++ [.sendGossip now message]) := by
    rw [nodeRun, nodeRun, List.map_append, List.foldl_append, List.map_singleton,
      NodeCall.queueCall, hurgent]
    rfl
  rw [QueueRun.Due, List.prefix_iff_eq_take.mp hpre, ← List.map_take, hsent]
  have hafter := acceptedAbove_high_nodeRun peerId
    (calls ++ [.sendGossip now message] ++ later.take earlier.length)
  rw [nodeRun, List.map_append, List.foldl_append, ← nodeRun] at hafter
  rw [hafter, acceptedAbove_high_nodeRun]
  rfl

/-- **Urgent messages of a node**: in every run of a node, a message for the ledger, a
challenge or a request for replication that was accepted has been dequeued exactly when there
were more dequeues since than urgent messages were queued when it came. Nothing that the node
sends later makes it wait longer. -/
theorem urgent_dequeued_iff (peerId : String) (calls later : List NodeCall) (now : UInt64)
    (message : P2pMessage) (hurgent : getMessagePriority message 1 = .high)
    (hlt : (calls.foldl nodeStep (.new peerId)).gossipQueue.len < 10000)
    (hfew : (nodeRun peerId (calls ++ .sendGossip now message :: later)).accepted.length ≤
      2 ^ 64) :
    let node := calls.foldl nodeStep (.new peerId)
    node.gossipQueue.gossipMsg now peerId message ∈
        (nodeRun peerId (calls ++ .sendGossip now message :: later)).dequeued ↔
      (node.gossipQueue.queues .high).length <
        dequeues (later.map (NodeCall.queueCall peerId)) := by
  intro node
  have hnode : node = ⟨peerId, (nodeRun peerId calls).queue⟩ := nodeStep_run peerId calls
  have hs : (nodeRun peerId calls).Invariant 10000 := queueRun_invariant 10000 _
  have hend : (nodeRun peerId (calls ++ .sendGossip now message :: later)).Invariant 10000 :=
    queueRun_invariant 10000 _
  have hrun : nodeRun peerId (calls ++ .sendGossip now message :: later) =
      (later.map (NodeCall.queueCall peerId)).foldl queueStep
        (queueStep (nodeRun peerId calls) (.enqueue now .high peerId message)) := by
    rw [nodeRun, List.map_append, List.foldl_append, List.map_cons, List.foldl_cons, ← nodeRun,
      NodeCall.queueCall, hurgent]
  rw [nodeStep_run] at hlt
  rw [hrun] at hfew hend ⊢
  rw [hnode, ← queuedFrom_high_nodeRun, ← exists_dequeues_eq_iff]
  have hdue : ∀ earlier, earlier <+: later.map (NodeCall.queueCall peerId) →
      ((queueStep (nodeRun peerId calls) (.enqueue now .high peerId message)).Due .high
        ((nodeRun peerId calls).queuedFrom .high) earlier ↔
          dequeues earlier = (nodeRun peerId calls).queuedFrom .high) :=
    fun _ hprefix => due_high_iff hurgent hprefix
  rcases (hs.waiting hlt now .high peerId message).run (later.map (NodeCall.queueCall peerId)) with
    ⟨⟨earlier, hprefix, hearlier⟩, hmem⟩ | ⟨hnever, k, hwaiting, -⟩
  · exact iff_of_true hmem ⟨earlier, hprefix,
      (hdue earlier ((List.prefix_append ..).trans hprefix)).mp hearlier⟩
  · refine iff_of_false (hwaiting.not_mem_dequeued hend hfew) ?_
    rintro ⟨earlier, hprefix, heq⟩
    exact hnever ⟨earlier, hprefix,
      (hdue earlier ((List.prefix_append ..).trans hprefix)).mpr heq⟩

/-- A request for the ledger that is sent after an announcement leaves first. -/
theorem urgent_dequeued_request :
    let node := nodeStep (.new "p") (.sendGossip 0 (.nodeJoin "n" "p" 0))
    node.gossipQueue.gossipMsg 1 "p" (.ledgerRequest 0) ∈
        (nodeRun "p" [.sendGossip 0 (.nodeJoin "n" "p" 0), .sendGossip 1 (.ledgerRequest 0),
          .dequeue]).dequeued ↔
      (node.gossipQueue.queues .high).length < 1 :=
  urgent_dequeued_iff "p" [.sendGossip 0 (.nodeJoin "n" "p" 0)] [.dequeue] 1 (.ledgerRequest 0)
    rfl (by decide) (by decide)

end VaultKeeper
