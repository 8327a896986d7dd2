import VaultKeeper.GossipSync
import VaultKeeper.Runs

/-!
# Results of a Synchronization

`ledger/src/gossip_sync.rs`: what a manager returns over whole runs. Requests are created
and answered in any order; answers may be repeated, or belong to no request. A request is
pending from the call that creates it to the first answer with its id, and only an answer
to a pending request is read.

An answer is compared with the local entries of the moment, given with the call. Each of its
entries whose id occurs locally with a different text yields one result, in the order of the
answer, and each result is counted once. The counters are `u64` and start over after `2^64`
results.

## Main results

* `SyncRun.Tracks.step`: what every call keeps of the relation between the calls so far,
  the pending requests and the counters.
* `ConflictResolver.detectConflicts_forall₂`: the conflicts found are those of the remote
  entries that conflict, in their order.
* `process_entries_end_to_end`: what `process_entries` returns after any run, and what the
  counters say.
* `conflict_counter_wraps`: they say nothing was resolved after `2^64` results.
-/

namespace VaultKeeper

/-! ### One answer -/

/-- A remote entry has the id of a local entry and a different text. -/
def conflictsWith (localEntries : List Value) (remote : Value) : Bool :=
  localEntries.any fun e =>
    (idOf e).isSome && idOf e == idOf remote && e.toText != remote.toText

/-- The result of a remote entry: itself when its timestamp is greater than that of the local
entry with its id, and the local entry otherwise. -/
def Resolves (localEntries : List Value) (remote : Value) (result : ResolveResult) : Prop :=
  ∃ e ∈ localEntries, (idOf e).isSome ∧ idOf e = idOf remote ∧ e.toText ≠ remote.toText ∧
    result = if timestampOf e < timestampOf remote then .useRemote remote else .useLocal e

/-- No two local entries have one string as their id. -/
def DistinctIds (localEntries : List Value) : Prop :=
  (localEntries.filterMap idOf).Nodup

theorem DistinctIds.eq_of_idOf_eq {localEntries : List Value} (h : DistinctIds localEntries)
    {id : String} {d e : Value} (hd : d ∈ localEntries) (he : e ∈ localEntries)
    (hid : idOf d = some id) (hie : idOf e = some id) : d = e := by
  rw [DistinctIds, List.Nodup, List.pairwise_filterMap] at h
  have hsymm : Std.Symm fun a b : Value =>
      ∀ i, idOf a = some i → ∀ j, idOf b = some j → i ≠ j :=
    ⟨fun a b hab i hi j hj => (hab j hj i hi).symm⟩
  by_contra hne
  exact h.forall hd he hne id hid id hie rfl

/-- What a list yields by an optional result stands in the order of the elements that have
one. -/
theorem forall₂_filter_filterMap {α β : Type*} {p : α → Bool} {f : α → Option β}
    {R : α → β → Prop} (hsome : ∀ a, p a = true → ∃ b, f a = some b ∧ R a b)
    (hnone : ∀ a, p a = false → f a = none) (l : List α) :
    List.Forall₂ R (l.filter p) (l.filterMap f) := by
  induction l with
  | nil => exact List.Forall₂.nil
  | cons a rest ih =>
      cases hp : p a with
      | true =>
          obtain ⟨b, hb, hab⟩ := hsome a hp
          rw [List.filter_cons_of_pos hp, List.filterMap_cons_some hb]
          exact List.Forall₂.cons hab ih
      | false =>
          rw [List.filter_cons_of_neg (by simp [hp]), List.filterMap_cons_none (hnone a hp)]
          exact ih

namespace ConflictResolver

/-- The map of local entries with distinct ids holds each of them. -/
theorem localMap_eq_some_iff {localEntries : List Value} (h : DistinctIds localEntries)
    {id : String} {e : Value} :
    localMap localEntries id = some e ↔ e ∈ localEntries ∧ idOf e = some id := by
  constructor
  · exact mem_of_localMap
  · rintro ⟨he, hid⟩
    cases hmap : localMap localEntries id with
    | none =>
        rw [localMap, List.find?_eq_none] at hmap
        exact absurd hid (by simpa using hmap e (List.mem_reverse.mpr he))
    | some d =>
        obtain ⟨hd, hdid⟩ := mem_of_localMap hmap
        rw [h.eq_of_idOf_eq hd he hdid hid]

/-- The conflict of a remote entry. -/
theorem conflictsWith_iff {localEntries : List Value} {remote : Value} :
    conflictsWith localEntries remote = true ↔
      ∃ e ∈ localEntries, ∃ id, idOf e = some id ∧ idOf remote = some id ∧
        e.toText ≠ remote.toText := by
  simp only [conflictsWith, List.any_eq_true, Bool.and_eq_true, bne_iff_ne, beq_iff_eq,
    Option.isSome_iff_exists]
  constructor
  · rintro ⟨e, he, ⟨⟨id, hid⟩, hsame⟩, htext⟩
    exact ⟨e, he, id, hid, hsame ▸ hid, htext⟩
  · rintro ⟨e, he, id, hid, hremote, htext⟩
    exact ⟨e, he, ⟨⟨id, hid⟩, hid.trans hremote.symm⟩, htext⟩

/-- **The conflicts of an answer**: one for each remote entry that conflicts, between it and
the local entry with its id, in the order of the answer. -/
theorem detectConflicts_forall₂ {localEntries : List Value} (h : DistinctIds localEntries)
    (remoteEntries : List Value) :
    List.Forall₂
      (fun remote c => ∃ e ∈ localEntries, (idOf e).isSome ∧ idOf e = idOf remote ∧
        e.toText ≠ remote.toText ∧ c = LedgerConflict.new e remote)
      (remoteEntries.filter (conflictsWith localEntries))
      (detectConflicts localEntries remoteEntries) := by
  rw [detectConflicts]
  refine forall₂_filter_filterMap (fun remote hc => ?_) (fun remote hc => ?_) remoteEntries
  · obtain ⟨e, he, id, hid, hremote, htext⟩ := conflictsWith_iff.mp hc
    have hmap := (localMap_eq_some_iff h).mpr ⟨he, hid⟩
    refine ⟨LedgerConflict.new e remote, ?_, e, he, by simp [hid], hid.trans hremote.symm,
      htext, rfl⟩
    simp only [hremote, hmap, Option.bind_eq_bind, Option.bind_some, if_pos htext]
  · rw [Option.eq_none_iff_forall_ne_some]
    intro c hsome
    simp only [Option.bind_eq_bind, Option.bind_eq_some_iff, Option.ite_none_right_eq_some]
      at hsome
    obtain ⟨id, hremote, e, hmap, htext, -⟩ := hsome
    obtain ⟨he, hid⟩ := mem_of_localMap hmap
    rw [conflictsWith_iff.mpr ⟨e, he, id, hid, hremote, htext⟩] at hc
    cases hc

/-- Without votes the later timestamp wins, and the local entry when neither is later. -/
theorem resolve_no_votes (r : ConflictResolver) (localEntry remoteEntry : Value) :
    (r.resolve (.new localEntry remoteEntry) 0 0).1 =
      if timestampOf localEntry < timestampOf remoteEntry then .useRemote remoteEntry
      else .useLocal localEntry := by
  by_cases hnewer : timestampOf localEntry < timestampOf remoteEntry
  · simp [resolve, LedgerConflict.resolveByMajority, LedgerConflict.resolveByTimestamp,
      LedgerConflict.new, hnewer]
  · simp [resolve, LedgerConflict.resolveByMajority, LedgerConflict.resolveByTimestamp,
      LedgerConflict.new, hnewer]

/-- The results counted so far are `n`, up to the range of `u64`, and each was won by one
side. -/
def Counts (r : ConflictResolver) (n : ℕ) : Prop :=
  ∃ localWon remoteWon : ℕ, localWon + remoteWon = n ∧
    r.stats = (.ofNat n, .ofNat localWon, .ofNat remoteWon)

theorem Counts.resolve {r : ConflictResolver} {n : ℕ} (h : r.Counts n) (c : LedgerConflict)
    (votesForLocal votesForRemote : ℕ) :
    (r.resolve c votesForLocal votesForRemote).2.Counts (n + 1) := by
  obtain ⟨localWon, remoteWon, rfl, hstats⟩ := h
  simp only [stats, Prod.mk.injEq] at hstats
  obtain ⟨hresolved, hlocal, hremote⟩ := hstats
  rw [ConflictResolver.resolve]
  split
  · exact ⟨localWon, remoteWon + 1, by omega,
      by simp [stats, hresolved, hlocal, hremote, UInt64.ofNat_add]⟩
  · exact ⟨localWon + 1, remoteWon, by omega,
      by simp [stats, hresolved, hlocal, hremote, UInt64.ofNat_add]⟩

/-- The sums of the counters are right up to the range of `u64`. -/
theorem Counts.stats_fst {r : ConflictResolver} {n : ℕ} (h : r.Counts n) :
    r.stats.1 = r.stats.2.1 + r.stats.2.2 ∧ r.stats.1 = .ofNat n := by
  obtain ⟨localWon, remoteWon, rfl, hstats⟩ := h
  rw [hstats]
  exact ⟨UInt64.ofNat_add .., rfl⟩

/-- Within the range the counters are exact. -/
theorem Counts.toNat_stats {r : ConflictResolver} {n : ℕ} (h : r.Counts n) (hn : n < 2 ^ 64) :
    r.stats.1.toNat = n ∧ r.stats.2.1.toNat + r.stats.2.2.toNat = n := by
  obtain ⟨localWon, remoteWon, rfl, hstats⟩ := h
  have hsize : UInt64.size = 2 ^ 64 := rfl
  rw [hstats]
  exact ⟨UInt64.toNat_ofNat_of_lt' (by omega), by
    rw [UInt64.toNat_ofNat_of_lt' (by omega), UInt64.toNat_ofNat_of_lt' (by omega)]⟩

end ConflictResolver

namespace LedgerSyncManager

/-- Resolving conflicts counts each of them. -/
theorem counts_resolveAll {r : ConflictResolver} {n : ℕ} (h : r.Counts n)
    (cs : List LedgerConflict) :
    (resolveAll r cs).2.Counts (n + (resolveAll r cs).1.length) := by
  induction cs generalizing r n with
  | nil => exact h
  | cons c cs ih =>
      have hnext := ih (h.resolve c 0 0)
      simp only [resolveAll, List.length_cons]
      rwa [Nat.add_right_comm, Nat.add_assoc] at hnext

/-- The results stand in the order of the conflicts. -/
theorem resolveAll_forall₂ {R : Value → LedgerConflict → Prop} {localEntries : List Value}
    (hR : ∀ remote c, R remote c → ∀ r : ConflictResolver,
      Resolves localEntries remote (r.resolve c 0 0).1)
    {remotes : List Value} {cs : List LedgerConflict} (h : List.Forall₂ R remotes cs)
    (r : ConflictResolver) :
    List.Forall₂ (Resolves localEntries) remotes (resolveAll r cs).1 := by
  induction h generalizing r with
  | nil => exact List.Forall₂.nil
  | cons hc _ ih => exact List.Forall₂.cons (hR _ _ hc r) (ih _)

/-- **A pending answer**: one result for each remote entry that conflicts. -/
theorem processEntries_forall₂ {m : LedgerSyncManager} {requestId : String}
    (hpending : (m.pendingRequests.lookup requestId).isSome) {localEntries : List Value}
    (h : DistinctIds localEntries) (entries : List Value) :
    List.Forall₂ (Resolves localEntries) (entries.filter (conflictsWith localEntries))
      (m.processEntries requestId entries localEntries).1 := by
  obtain ⟨peer, hpeer⟩ := Option.isSome_iff_exists.mp hpending
  rw [processEntries, hpeer]
  refine resolveAll_forall₂ ?_ (ConflictResolver.detectConflicts_forall₂ h entries)
    m.conflictResolver
  rintro remote c ⟨e, he, hsome, hid, htext, rfl⟩ r
  exact ⟨e, he, hsome, hid, htext, ConflictResolver.resolve_no_votes r e remote⟩

/-- An answer without a pending request is not read. -/
theorem processEntries_of_not_pending {m : LedgerSyncManager} {requestId : String}
    (h : ¬ (m.pendingRequests.lookup requestId).isSome) (entries localEntries : List Value) :
    m.processEntries requestId entries localEntries = ([], m) := by
  rw [processEntries, Option.not_isSome_iff_eq_none.mp h]

end LedgerSyncManager

/-! ### Whole runs -/

/-- A call on a manager. The request id is the one `Uuid::new_v4` gave. -/
inductive SyncCall
  | updateLocalState (merkleRoot : String) (latestSeq : ℤ)
  | registerPeerState (now : ℕ) (peerId merkleRoot : String) (latestSeq : ℤ)
  | createEntryRequest (requestId peerId : String)
  | processEntries (requestId : String) (entries localEntries : List Value)

/-- A manager with the results it has returned so far. -/
structure SyncRun where
  manager : LedgerSyncManager
  returned : List ResolveResult

/-- One call. -/
def syncStep (s : SyncRun) : SyncCall → SyncRun
  | .updateLocalState merkleRoot latestSeq =>
      { s with manager := s.manager.updateLocalState merkleRoot latestSeq }
  | .registerPeerState now peerId merkleRoot latestSeq =>
      { s with manager := s.manager.registerPeerState now peerId merkleRoot latestSeq }
  | .createEntryRequest requestId peerId =>
      { s with manager := (s.manager.createEntryRequest requestId peerId).2 }
  | .processEntries requestId entries localEntries =>
      let (results, manager) := s.manager.processEntries requestId entries localEntries
      { manager := manager, returned := s.returned ++ results }

/-- The state of a new manager. -/
def SyncRun.new (localPeerId : String) : SyncRun where
  manager := .new localPeerId
  returned := []

/-- A request was created and not answered since. -/
def Pending (calls : List SyncCall) (requestId : String) : Prop :=
  ∃ earlier later peerId, calls = earlier ++ .createEntryRequest requestId peerId :: later ∧
    ∀ entries localEntries, .processEntries requestId entries localEntries ∉ later

theorem not_pending_nil (requestId : String) : ¬ Pending [] requestId := by
  rintro ⟨earlier, later, peerId, hcalls, -⟩
  simp at hcalls

/-- A request is pending after a call when the call creates it, or when it was pending before
and the call does not answer it. -/
theorem pending_concat (calls : List SyncCall) (c : SyncCall) (requestId : String) :
    Pending (calls ++ [c]) requestId ↔
      (∃ peerId, c = .createEntryRequest requestId peerId) ∨
        (Pending calls requestId ∧
          ∀ entries localEntries, .processEntries requestId entries localEntries ≠ c) := by
  constructor
  · rintro ⟨earlier, later, peerId, hcalls, hlater⟩
    rcases Runs.concat_eq_append_cons_iff.mp hcalls with
      ⟨-, -, hlast⟩ | ⟨later, rfl, hinit⟩
    · exact Or.inl ⟨peerId, hlast.symm⟩
    · refine Or.inr ⟨⟨earlier, later, peerId, hinit, fun es ls hmem => ?_⟩, fun es ls heq => ?_⟩
      · exact hlater es ls (List.mem_append_left _ hmem)
      · exact hlater es ls (by simp [heq])
  · rintro (⟨peerId, rfl⟩ | ⟨⟨earlier, later, peerId, rfl, hlater⟩, hc⟩)
    · exact ⟨calls, [], peerId, rfl, fun _ _ => List.not_mem_nil⟩
    · refine ⟨earlier, later ++ [c], peerId, by simp, fun es ls hmem => ?_⟩
      rcases List.mem_append.mp hmem with hmem | hmem
      · exact hlater es ls hmem
      · exact hc es ls (List.mem_singleton.mp hmem)

/-- The pending requests and the counters, told by the calls so far. -/
structure SyncRun.Tracks (calls : List SyncCall) (s : SyncRun) : Prop where
  pending : ∀ requestId,
    (s.manager.pendingRequests.lookup requestId).isSome ↔ Pending calls requestId
  counts : s.manager.conflictResolver.Counts s.returned.length

theorem SyncRun.tracks_new (localPeerId : String) : (SyncRun.new localPeerId).Tracks [] where
  pending requestId := by
    simp [SyncRun.new, LedgerSyncManager.new, not_pending_nil]
  counts := ⟨0, 0, rfl, rfl⟩

/-- A call that is about no request keeps which are pending. -/
theorem pending_concat_other {calls : List SyncCall} {c : SyncCall} (requestId : String)
    (hcreate : ∀ peerId, c ≠ .createEntryRequest requestId peerId)
    (hanswer : ∀ entries localEntries, .processEntries requestId entries localEntries ≠ c) :
    Pending (calls ++ [c]) requestId ↔ Pending calls requestId := by
  rw [pending_concat]
  constructor
  · rintro (⟨peerId, heq⟩ | ⟨hpending, -⟩)
    · exact absurd heq (hcreate peerId)
    · exact hpending
  · exact fun hpending => Or.inr ⟨hpending, hanswer⟩

/-- An answer settles its request, whether or not it was pending. -/
theorem lookup_processEntries (m : LedgerSyncManager) (requestId id : String)
    (entries localEntries : List Value) :
    ((m.processEntries requestId entries localEntries).2.pendingRequests.lookup id) =
      if id = requestId then none else m.pendingRequests.lookup id := by
  rw [LedgerSyncManager.processEntries]
  by_cases heq : id = requestId
  · subst heq
    rw [if_pos rfl]
    cases hlookup : m.pendingRequests.lookup id with
    | none => exact hlookup
    | some peer => exact AList.lookup_erase _ _
  · rw [if_neg heq]
    cases m.pendingRequests.lookup requestId with
    | none => rfl
    | some peer => exact AList.lookup_erase_ne heq

/-- **One call** keeps what the calls tell. -/
theorem SyncRun.Tracks.step {calls : List SyncCall} {s : SyncRun} (h : s.Tracks calls)
    (c : SyncCall) : (syncStep s c).Tracks (calls ++ [c]) := by
  cases c with
  | updateLocalState merkleRoot latestSeq =>
      exact ⟨fun id => by
        rw [pending_concat_other id (by simp) (by simp)]
        exact h.pending id, h.counts⟩
  | registerPeerState now peerId merkleRoot latestSeq =>
      exact ⟨fun id => by
        rw [pending_concat_other id (by simp) (by simp)]
        exact h.pending id, h.counts⟩
  | createEntryRequest requestId peerId =>
      refine ⟨fun id => ?_, h.counts⟩
      by_cases heq : id = requestId
      · subst heq
        simp [syncStep, LedgerSyncManager.createEntryRequest, pending_concat]
      · rw [pending_concat_other id (by simp [Ne.symm heq]) (by simp), ← h.pending id]
        simp [syncStep, LedgerSyncManager.createEntryRequest, AList.lookup_insert_ne heq]
  | processEntries requestId entries localEntries =>
      refine ⟨fun id => ?_, ?_⟩
      · simp only [syncStep, lookup_processEntries]
        by_cases heq : id = requestId
        · subst heq
          simp [pending_concat]
        · rw [if_neg heq, pending_concat_other id (by simp) (by simp [heq])]
          exact h.pending id
      · simp only [syncStep, List.length_append]
        rw [LedgerSyncManager.processEntries]
        cases s.manager.pendingRequests.lookup requestId with
        | none => exact h.counts
        | some peer => exact LedgerSyncManager.counts_resolveAll h.counts _

/-- Every run tells its pending requests and its counters. -/
theorem SyncRun.tracks_run (localPeerId : String) (calls : List SyncCall) :
    (calls.foldl syncStep (SyncRun.new localPeerId)).Tracks calls :=
  Runs.history syncStep (I := fun calls s => SyncRun.Tracks calls s) (G := fun _ _ => True)
    (fun _ _ c h _ => h.step c) (SyncRun.tracks_new localPeerId) fun _ _ => trivial

/-- **Entries end to end**: after any run, an answer to a pending request returns exactly one
result for each of its entries that conflicts, in their order, and any other answer returns
and changes nothing; and the results returned so far are all counted, for the side that won,
modulo `2^64`. -/
theorem process_entries_end_to_end (localPeerId : String) (calls : List SyncCall) :
    let s := calls.foldl syncStep (SyncRun.new localPeerId)
    let (resolved, localWins, remoteWins) := s.manager.conflictResolver.stats
    (∀ requestId entries localEntries, DistinctIds localEntries → Pending calls requestId →
      List.Forall₂ (Resolves localEntries) (entries.filter (conflictsWith localEntries))
        (s.manager.processEntries requestId entries localEntries).1) ∧
    (∀ requestId entries localEntries, ¬ Pending calls requestId →
      s.manager.processEntries requestId entries localEntries = ([], s.manager)) ∧
    resolved = localWins + remoteWins ∧ resolved = .ofNat s.returned.length ∧
    (s.returned.length < 2 ^ 64 → resolved.toNat = s.returned.length ∧
      localWins.toNat + remoteWins.toNat = s.returned.length) := by
  intro s
  have htracks : s.Tracks calls := SyncRun.tracks_run localPeerId calls
  obtain ⟨hsum, hresolved⟩ := htracks.counts.stats_fst
  refine ⟨fun requestId entries localEntries hids hpending => ?_,
    fun requestId entries localEntries hpending => ?_, hsum, hresolved,
    htracks.counts.toNat_stats⟩
  · exact LedgerSyncManager.processEntries_forall₂ ((htracks.pending requestId).mpr hpending)
      hids entries
  · refine LedgerSyncManager.processEntries_of_not_pending ?_ entries localEntries
    exact fun hsome => hpending ((htracks.pending requestId).mp hsome)

/-- A peer is asked `n` times, each time under a new request id, and each time it answers with
another version of the one local entry. -/
def disputes (n : ℕ) : List SyncCall :=
  (List.range n).flatMap fun i =>
    [.createEntryRequest (toString i) "peer",
      .processEntries (toString i) [depositVersion "200.00"] [depositVersion "100.00"]]

/-- One request and its answer return one result. -/
theorem returned_dispute (s : SyncRun) (requestId : String) :
    (syncStep (syncStep s (.createEntryRequest requestId "peer"))
      (.processEntries requestId [depositVersion "200.00"]
        [depositVersion "100.00"])).returned.length = s.returned.length + 1 := by
  have hpending : ((s.manager.createEntryRequest requestId "peer").2.pendingRequests.lookup
      requestId).isSome := by
    simp [LedgerSyncManager.createEntryRequest]
  have hids : DistinctIds [depositVersion "100.00"] := by
    rw [DistinctIds]
    decide
  have hlength := (LedgerSyncManager.processEntries_forall₂ hpending hids
    [depositVersion "200.00"]).length_eq
  rw [List.filter_cons_of_pos (by decide), List.filter_nil, List.length_singleton] at hlength
  simp only [syncStep, List.length_append]
  rw [← hlength]

theorem returned_disputes (s : SyncRun) (n : ℕ) :
    ((disputes n).foldl syncStep s).returned.length = s.returned.length + n := by
  induction n with
  | zero => rfl
  | succ n ih =>
      rw [disputes, List.range_succ, List.flatMap_append, List.flatMap_singleton,
        List.foldl_append, ← disputes]
      exact (returned_dispute _ _).trans (by omega)

/-- After `2^64` results the counters say that nothing was resolved. -/
theorem conflict_counter_wraps :
    ¬ ∀ calls : List SyncCall,
      let s := calls.foldl syncStep (SyncRun.new "local")
      s.manager.conflictResolver.stats.1.toNat = s.returned.length := by
  intro h
  have hcounts := (SyncRun.tracks_run "local" (disputes (2 ^ 64))).counts.stats_fst.2
  have hlength := returned_disputes (SyncRun.new "local") (2 ^ 64)
  have hclaim := h (disputes (2 ^ 64))
  simp only [hcounts, hlength] at hclaim
  exact absurd hclaim (by decide)

end VaultKeeper
