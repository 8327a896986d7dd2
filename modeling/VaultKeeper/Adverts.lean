import VaultKeeper.GossipSync
import VaultKeeper.Recording
import VaultKeeper.Runs
import Mathlib.Data.List.Infix

/-!
# Advertised States

`ledger/src/gossip_sync.rs` over `ledger/src/store.rs`: a node tells its manager the root and
the latest number of its ledger, advertises them, and registers what its peers advertise. All
of this may be out of date: entries are recorded after the manager was told, and
advertisements are delivered late, twice, in another order or never.

## Main results

* `AdvertNet.Knows.step`: whatever a manager holds or a message says of a ledger was true of
  it at an earlier moment of the run.
* `AdvertNet.shared_of_not_needsSync`: a node that sees no need to sync with a peer shares
  with it the entries the peer has advertised.
-/

namespace VaultKeeper

open LedgerEntries

/-- A node: its ledger and its manager. -/
structure AdvertNode where
  store : LedgerEntries
  manager : LedgerSyncManager

/-- The nodes under their peer ids, and all messages sent so far. -/
structure AdvertNet where
  node : String → AdvertNode
  sent : List SyncMessage

/-- What happens in the network. A message is delivered by its place among those sent. -/
inductive AdvertEvent
  | recordEntry (i : String) (c : RecordCall)
  | markSynced (i : String) (upToSeq : ℤ)
  | updateLocalState (i : String)
  | advertise (i : String)
  | request (i requestId peerId : String)
  | answer (i requestId : String) (entries : List Value)
  | deliver (place : ℕ) (i : String) (now : ℕ)

namespace AdvertNet

/-- New nodes with empty ledgers. -/
def new : AdvertNet where
  node i := ⟨.empty, .new i⟩
  sent := []

/-- The ledger of a node. -/
def store (s : AdvertNet) (i : String) : LedgerEntries :=
  (s.node i).store

/-- The manager of a node. -/
def manager (s : AdvertNet) (i : String) : LedgerSyncManager :=
  (s.node i).manager

/-- Change the ledger of one node. -/
def setStore (s : AdvertNet) (i : String) (t : LedgerEntries) : AdvertNet :=
  { s with node := Function.update s.node i { s.node i with store := t } }

/-- Change the manager of one node. -/
def setManager (s : AdvertNet) (i : String) (m : LedgerSyncManager) : AdvertNet :=
  { s with node := Function.update s.node i { s.node i with manager := m } }

@[simp] theorem store_setStore (s : AdvertNet) (i j : String) (t : LedgerEntries) :
    (s.setStore i t).store j = if j = i then t else s.store j := by
  by_cases h : j = i
  · subst h
    simp [store, setStore]
  · simp [store, setStore, h]

@[simp] theorem manager_setStore (s : AdvertNet) (i j : String) (t : LedgerEntries) :
    (s.setStore i t).manager j = s.manager j := by
  by_cases h : j = i
  · subst h
    simp [manager, setStore]
  · simp [manager, setStore, h]

@[simp] theorem store_setManager (s : AdvertNet) (i j : String) (m : LedgerSyncManager) :
    (s.setManager i m).store j = s.store j := by
  by_cases h : j = i
  · subst h
    simp [store, setManager]
  · simp [store, setManager, h]

@[simp] theorem manager_setManager (s : AdvertNet) (i j : String) (m : LedgerSyncManager) :
    (s.setManager i m).manager j = if j = i then m else s.manager j := by
  by_cases h : j = i
  · subst h
    simp [manager, setManager]
  · simp [manager, setManager, h]

variable (hex : HexCodec) (blake3 : HashFn)

/-- One event. -/
def step (s : AdvertNet) : AdvertEvent → AdvertNet
  | .recordEntry i c =>
      match (s.store i).recordEntry hex blake3 c with
      | .ok (t, _) => s.setStore i t
      | .error _ => s
  | .markSynced i upToSeq => s.setStore i ((s.store i).markSynced upToSeq)
  | .updateLocalState i =>
      s.setManager i ((s.manager i).updateLocalState
        ((s.store i).computeMerkleRoot hex blake3) (s.store i).getLatestSeq)
  | .advertise i => { s with sent := s.sent ++ [(s.manager i).createStateAdvert] }
  | .request i requestId peerId =>
      let (message, m) := (s.manager i).createEntryRequest requestId peerId
      { s.setManager i m with sent := s.sent ++ [message] }
  | .answer i requestId entries =>
      s.setManager i ((s.manager i).processEntries requestId entries (s.store i).values).2
  | .deliver place i now =>
      match s.sent[place]? with
      | some (.stateAdvert peerId merkleRoot latestSeq) =>
          s.setManager i ((s.manager i).registerPeerState now peerId merkleRoot latestSeq)
      | _ => s

/-! ### Ledgers only grow -/

variable {hex blake3} {s : AdvertNet}

/-- Marking entries as synced changes none of them. -/
theorem values_markSynced (t : LedgerEntries) (upToSeq : ℤ) :
    (t.markSynced upToSeq).values = t.values := by
  rw [values, values, markSynced, List.map_map]
  refine List.map_congr_left fun r _ => ?_
  rw [Function.comp_apply]
  split <;> rfl

/-- **One event** keeps the entries of every ledger, and their places. -/
theorem values_prefix_step (e : AdvertEvent) (i : String) :
    (s.store i).values <+: ((s.step hex blake3 e).store i).values := by
  cases e with
  | recordEntry j c =>
      rw [step]
      split
      · next t seq hrec =>
        rw [store_setStore]
        split
        · next heq =>
          rw [heq, values, values, (insertEntry_eq_ok hrec).1, List.map_append]
          exact List.prefix_append ..
        · exact List.prefix_rfl
      · exact List.prefix_rfl
  | markSynced j upToSeq =>
      rw [step, store_setStore]
      split
      · next heq =>
        rw [heq, values_markSynced]
      · exact List.prefix_rfl
  | updateLocalState j =>
      rw [step, store_setManager]
  | advertise j => exact List.prefix_rfl
  | request j requestId peerId => exact (store_setManager s j i _ ▸ List.prefix_rfl)
  | answer j requestId entries =>
      rw [step, store_setManager]
  | deliver place j now =>
      rw [step]
      split
      · rw [store_setManager]
      · exact List.prefix_rfl

theorem values_prefix_run (events : List AdvertEvent) (i : String) :
    (s.store i).values <+: ((events.foldl (step hex blake3) s).store i).values :=
  Runs.invariant_foldl (step hex blake3) (G := fun _ _ => True)
    (I := fun t => (s.store i).values <+: (t.store i).values)
    (fun _ e ht _ => ht.trans (values_prefix_step e i)) List.prefix_rfl fun _ _ => trivial

/-! ### What is told of a ledger -/

variable (hex blake3)

/-- A root and a latest number are those of a node's ledger after an earlier part of the
run, or the number is 0. -/
def Told (events : List AdvertEvent) (i merkleRoot : String) (latestSeq : ℤ) : Prop :=
  latestSeq = 0 ∨ ∃ earlier, earlier <+: events ∧
    let t := (earlier.foldl (step hex blake3) new).store i
    merkleRoot = t.computeMerkleRoot hex blake3 ∧ latestSeq = t.getLatestSeq

/-- What a manager holds of its own ledger and of those of its peers was told of them. -/
structure Honest (events : List AdvertEvent) (i : String) (m : LedgerSyncManager) : Prop where
  name : m.localPeerId = i
  localState : Told hex blake3 events i m.localMerkleRoot m.localLatestSeq
  peers : ∀ j, ∀ p ∈ m.peers.lookup j, Told hex blake3 events j p.merkleRoot p.latestSeq

/-- Whatever the managers hold and the messages say of a ledger was told of it. -/
structure Knows (events : List AdvertEvent) (s : AdvertNet) : Prop where
  run : s = events.foldl (step hex blake3) new
  managers : ∀ i, Honest hex blake3 events i (s.manager i)
  sent : ∀ j merkleRoot latestSeq, .stateAdvert j merkleRoot latestSeq ∈ s.sent →
    Told hex blake3 events j merkleRoot latestSeq

variable {hex blake3} {events : List AdvertEvent} {i j merkleRoot : String} {latestSeq : ℤ}
  {m : LedgerSyncManager}

/-- What was told stays told. -/
theorem Told.concat (h : Told hex blake3 events i merkleRoot latestSeq) (e : AdvertEvent) :
    Told hex blake3 (events ++ [e]) i merkleRoot latestSeq := by
  rcases h with h | ⟨earlier, hearlier, hsame⟩
  · exact Or.inl h
  · exact Or.inr ⟨earlier, hearlier.trans (List.prefix_append ..), hsame⟩

theorem Honest.concat (h : Honest hex blake3 events i m) (e : AdvertEvent) :
    Honest hex blake3 (events ++ [e]) i m where
  name := h.name
  localState := h.localState.concat e
  peers j p hp := (h.peers j p hp).concat e

/-- A manager that is told the state of its ledger. -/
theorem Honest.updateLocalState (h : Honest hex blake3 events i m)
    (htold : Told hex blake3 events i merkleRoot latestSeq) :
    Honest hex blake3 events i (m.updateLocalState merkleRoot latestSeq) where
  name := h.name
  localState := htold
  peers := h.peers

/-- A manager that registers what was told of a peer. -/
theorem Honest.registerPeerState (h : Honest hex blake3 events i m) (now : ℕ)
    (htold : Told hex blake3 events j merkleRoot latestSeq) :
    Honest hex blake3 events i (m.registerPeerState now j merkleRoot latestSeq) where
  name := h.name
  localState := h.localState
  peers k p hp := by
    rw [LedgerSyncManager.registerPeerState] at hp
    rcases eq_or_ne k j with rfl | hne
    · rw [AList.lookup_insert, Option.mem_some_iff] at hp
      subst hp
      exact htold
    · rw [AList.lookup_insert_ne hne] at hp
      exact h.peers k p hp

/-- Processing an answer changes neither what a manager holds of its ledger nor of peers. -/
theorem Honest.processEntries (h : Honest hex blake3 events i m) (requestId : String)
    (entries localEntries : List Value) :
    Honest hex blake3 events i (m.processEntries requestId entries localEntries).2 := by
  rw [LedgerSyncManager.processEntries]
  split
  · exact h
  · exact ⟨h.name, h.localState, h.peers⟩

theorem knows_new : Knows hex blake3 [] new where
  run := rfl
  managers i :=
    { name := rfl
      localState := Or.inl rfl
      peers := fun j p hp => by simp [manager, new, LedgerSyncManager.new] at hp }
  sent j merkleRoot latestSeq hmem := by simp [new] at hmem

/-- What is known stays known when the managers are honest after an event and the event
sends nothing but what was told. -/
theorem Knows.concat (h : Knows hex blake3 events s) {e : AdvertEvent}
    (hmanagers : ∀ i, Honest hex blake3 (events ++ [e]) i ((s.step hex blake3 e).manager i))
    (hsent : ∀ j merkleRoot latestSeq,
      .stateAdvert j merkleRoot latestSeq ∈ (s.step hex blake3 e).sent →
        .stateAdvert j merkleRoot latestSeq ∈ s.sent ∨
          Told hex blake3 events j merkleRoot latestSeq) :
    Knows hex blake3 (events ++ [e]) (s.step hex blake3 e) where
  run := by
    rw [List.foldl_append, ← h.run]
    rfl
  managers := hmanagers
  sent j merkleRoot latestSeq hmem :=
    ((hsent j merkleRoot latestSeq hmem).elim (h.sent j merkleRoot latestSeq) id).concat e

/-- The managers are honest after one changes to an honest one. -/
theorem Knows.honest_setManager (h : Knows hex blake3 events s) {e : AdvertEvent}
    (hm : Honest hex blake3 (events ++ [e]) i m) (j : String) :
    Honest hex blake3 (events ++ [e]) j ((s.setManager i m).manager j) := by
  rw [manager_setManager]
  split
  · next heq => exact heq ▸ hm
  · exact (h.managers j).concat e

/-- A delivery registers what an advertisement that was sent says, or does nothing. -/
theorem step_deliver (s : AdvertNet) (place : ℕ) (i : String) (now : ℕ) :
    s.step hex blake3 (.deliver place i now) = s ∨
      ∃ j root seq, .stateAdvert j root seq ∈ s.sent ∧
        s.step hex blake3 (.deliver place i now) =
          s.setManager i ((s.manager i).registerPeerState now j root seq) := by
  rw [AdvertNet.step]
  split
  · next j root seq hsent =>
    exact Or.inr ⟨j, root, seq, List.mem_of_getElem? hsent, rfl⟩
  · exact Or.inl rfl

/-- **The step**: every event keeps what is known. -/
theorem Knows.step (h : Knows hex blake3 events s) (e : AdvertEvent) :
    Knows hex blake3 (events ++ [e]) (s.step hex blake3 e) := by
  cases e with
  | recordEntry i c =>
      refine h.concat (fun j => ?_) fun j root seq hmem => Or.inl ?_
      · rw [AdvertNet.step]
        split
        · rw [manager_setStore]
          exact (h.managers j).concat _
        · exact (h.managers j).concat _
      · rw [AdvertNet.step] at hmem
        split at hmem
        · exact hmem
        · exact hmem
  | markSynced i upToSeq =>
      refine h.concat (fun j => ?_) fun j root seq hmem => Or.inl hmem
      rw [AdvertNet.step, manager_setStore]
      exact (h.managers j).concat _
  | updateLocalState i =>
      refine h.concat (h.honest_setManager ?_) fun j root seq hmem => Or.inl hmem
      refine ((h.managers i).concat _).updateLocalState ?_
      refine Or.inr ⟨events, List.prefix_append .., ?_, ?_⟩
      · rw [← h.run]
      · rw [← h.run]
  | advertise i =>
      refine h.concat (fun j => (h.managers j).concat _) fun j root seq hmem => ?_
      rcases List.mem_append.mp hmem with hmem | hmem
      · exact Or.inl hmem
      · have hadvert := SyncMessage.stateAdvert.inj (List.mem_singleton.mp hmem)
        obtain ⟨rfl, rfl, rfl⟩ := hadvert
        rw [(h.managers i).name]
        exact Or.inr (h.managers i).localState
  | request i requestId peerId =>
      refine h.concat (h.honest_setManager ?_) fun j root seq hmem => Or.inl ?_
      · exact { (h.managers i).concat _ with }
      · simpa [AdvertNet.step, LedgerSyncManager.createEntryRequest, setManager] using hmem
  | answer i requestId entries =>
      refine h.concat (h.honest_setManager ?_) fun j root seq hmem => Or.inl hmem
      exact ((h.managers i).concat _).processEntries ..
  | deliver place i now =>
      rcases step_deliver s place i now with hsame | ⟨j, root, seq, hmem, hregister⟩
      · refine h.concat (fun k => ?_) fun k root seq hmem => Or.inl ?_
        · rw [hsame]
          exact (h.managers k).concat _
        · rwa [hsame] at hmem
      · have htold := (h.sent j root seq hmem).concat (.deliver place i now)
        refine h.concat (fun k => ?_) fun k root seq hmem => Or.inl ?_
        · rw [hregister]
          exact h.honest_setManager (((h.managers i).concat _).registerPeerState now htold) k
        · rwa [hregister] at hmem

theorem knows_run (events : List AdvertEvent) :
    Knows hex blake3 events (events.foldl (step hex blake3) new) :=
  Runs.history (step hex blake3) (G := fun _ _ => True) (fun _ _ e hs _ => hs.step e) knows_new
    fun _ _ => trivial

/-! ### What two nodes share -/

/-- The ledgers there were in a run. -/
def ledgersOf (hex : HexCodec) (blake3 : HashFn) (events : List AdvertEvent) :
    Set LedgerEntries :=
  {t | ∃ earlier, earlier <+: events ∧ ∃ i, t = (earlier.foldl (step hex blake3) new).store i}

/-- What a node's ledger held at an earlier moment are the first entries it holds now. -/
theorem values_prefix_earlier {earlier : List AdvertEvent} (h : earlier <+: events)
    (i : String) : ((earlier.foldl (step hex blake3) new).store i).values <+:
      ((events.foldl (step hex blake3) new).store i).values := by
  obtain ⟨later, rfl⟩ := h
  rw [List.foldl_append]
  exact values_prefix_run later i

/-- The entries a root covers. -/
theorem getEntriesFrom_zero (t : LedgerEntries) :
    t.getEntriesFrom 0 rootLimit = t.values.take rootLimit := by
  rw [← Nat.cast_zero, getEntriesFrom_natCast, List.drop_zero, List.map_take, values]

/-- **Seeing no need to sync**: after any run, a node that needs no sync with a peer it knows
has the first entries of its ledger in common with it, as many as the peer advertised and a
root covers, when no two byte strings hashed for the roots of the run collide. -/
theorem shared_of_not_needsSync (hex : HexCodec) (blake3 : HashFn) (events : List AdvertEvent)
    (hinj : Set.InjOn blake3 {b | ∃ t ∈ ledgersOf hex blake3 events, b ∈ t.hashedInputs blake3})
    {i j : String} {p : PeerSyncState}
    (hpeer : ((events.foldl (step hex blake3) new).manager i).peers.lookup j = some p)
    (hsync : ((events.foldl (step hex blake3) new).manager i).needsSync j = false) :
    ∃ shared : List Value, (shared.length : ℤ) = min p.latestSeq rootLimit ∧
      shared <+: ((events.foldl (step hex blake3) new).store i).values ∧
      shared <+: ((events.foldl (step hex blake3) new).store j).values := by
  have hknows := @knows_run hex blake3 events
  have hlocal := (hknows.managers i).localState
  have htold := (hknows.managers i).peers j p hpeer
  rw [LedgerSyncManager.needsSync, hpeer] at hsync
  simp only [ne_eq, ite_not] at hsync
  split at hsync
  · next hroot =>
    have hbehind : p.latestSeq ≤
        ((events.foldl (step hex blake3) new).manager i).localLatestSeq := by
      by_contra hahead
      rw [if_pos (not_le.mp hahead)] at hsync
      cases hsync
    -- a peer that has advertised no entry shares none
    have hnone : p.latestSeq = 0 → ∃ shared : List Value,
        (shared.length : ℤ) = min p.latestSeq rootLimit ∧
          shared <+: ((events.foldl (step hex blake3) new).store i).values ∧
          shared <+: ((events.foldl (step hex blake3) new).store j).values := fun hzero =>
      ⟨[], by simp [hzero], List.nil_prefix, List.nil_prefix⟩
    rcases htold with hzero | ⟨earlier, hearlier, hpeerRoot, hpeerSeq⟩
    · exact hnone hzero
    rcases hlocal with hzero | ⟨earlier', hearlier', hlocalRoot, -⟩
    · exact hnone (by omega)
    have hroots := hlocalRoot.symm.trans (hroot.symm.trans hpeerRoot)
    have htexts := rootTexts_eq_of_root_eq (hinj.mono ?_) hroots
    · have hvalues := getEntriesFrom_eq_of_rootTexts_eq htexts
      rw [getEntriesFrom_zero, getEntriesFrom_zero] at hvalues
      refine ⟨_, ?_, hvalues ▸ (List.take_prefix _ _).trans (values_prefix_earlier hearlier' i),
        (List.take_prefix rootLimit _).trans (values_prefix_earlier hearlier j)⟩
      rw [hpeerSeq, getLatestSeq_eq, List.length_take, values, List.length_map]
      omega
    · rintro b (hb | hb)
      · exact ⟨_, ⟨earlier', hearlier', i, rfl⟩, hb⟩
      · exact ⟨_, ⟨earlier, hearlier, j, rfl⟩, hb⟩
  · cases hsync

/-- The digest of the text that stands for a ledger without entries. -/
def emptyDigest : Hash where
  bytes := [107, 223, 63, 229, 80, 82, 131, 29, 34, 47, 198, 184, 43, 43, 160, 63, 50, 179, 89, 148,
    16, 250, 253, 49, 118, 66, 226, 25, 37, 195, 143, 22]
  size := rfl

/-- The byte strings hashed for a recorded deposit and for a ledger without entries, and their
digests. -/
def advertisedTable : List (Bytes × Hash) :=
  [(utf8 "empty", emptyDigest), (depositCall.leafInput, depositLeaf),
    (depositBytes, depositDigest)]

/-- `blake3` on these byte strings. -/
def blake3Advertised : HashFn :=
  tabulated advertisedTable

/-- Two nodes record one deposit, and the first hears of the second. -/
def depositEvents : List AdvertEvent :=
  [.recordEntry "a" depositCall, .recordEntry "b" depositCall, .updateLocalState "a",
    .updateLocalState "b", .advertise "b", .deliver 0 "a" 0]

/-- The ledgers of this run are without entries, or of the deposit. -/
theorem store_depositEvents {blake3 : HashFn} {t : LedgerEntries}
    (hrec : empty.recordEntry .lowercase blake3 depositCall = .ok (t, 1))
    {earlier : List AdvertEvent} (h : earlier <+: depositEvents) (i : String) :
    (earlier.foldl (step .lowercase blake3) new).store i = .empty ∨
      (earlier.foldl (step .lowercase blake3) new).store i = t := by
  have hagain : t.recordEntry .lowercase blake3 depositCall = .error .uniqueViolation := by
    have hrows := (insertEntry_eq_ok hrec).1
    rw [recordEntry, insertEntry, dif_pos, dif_pos]
    · simp [hrows, empty, rowsOf]
    · simp [getLatestSeq_eq, hrows, empty, rowsOf]
  refine Runs.invariant_foldl (step .lowercase blake3) (G := fun _ e => e ∈ depositEvents)
    (I := fun s => ∀ i, s.store i = .empty ∨ s.store i = t) (fun s e hs he i => ?_)
    (fun i => Or.inl rfl) (fun v hv => ?_) i
  · have hstep : ∀ j, (s.step .lowercase blake3 (.recordEntry j depositCall)).store i = .empty ∨
        (s.step .lowercase blake3 (.recordEntry j depositCall)).store i = t := by
      intro j
      rcases hs j with hj | hj
      · simp only [step, hj, hrec, store_setStore]
        split
        · exact Or.inr rfl
        · exact hs i
      · simp only [step, hj, hagain]
        exact hs i
    simp only [depositEvents, List.mem_cons, List.not_mem_nil, or_false] at he
    rcases he with rfl | rfl | rfl | rfl | rfl | rfl
    · exact hstep "a"
    · exact hstep "b"
    · simpa [step] using hs i
    · simpa [step] using hs i
    · exact hs i
    · rw [step]
      split
      · simpa using hs i
      · exact hs i
  · exact h.subset (Runs.mem_of_mem_visits _ hv)

theorem nodup_advertisedInputs : (advertisedTable.map Prod.fst).Nodup := by
  decide +kernel

theorem shared_of_not_needsSync_deposit : ∃ t : LedgerEntries,
    empty.recordEntry .lowercase blake3Advertised depositCall = .ok (t, 1) ∧
      ∃ shared : List Value, (shared.length : ℤ) = min 1 rootLimit ∧
        shared <+: ((depositEvents.foldl (step .lowercase blake3Advertised) new).store
          "a").values ∧
        shared <+: ((depositEvents.foldl (step .lowercase blake3Advertised) new).store
          "b").values := by
  obtain ⟨t, hrec, hrows⟩ := @insertEntry_ok empty
    (depositCall.entry .lowercase blake3Advertised) (by simp [empty]) (by simp [empty])
  refine ⟨t, hrec, ?_⟩
  have hseq : t.getLatestSeq = 1 := by
    rw [getLatestSeq_eq, hrows]
    rfl
  have ha : new.step .lowercase blake3Advertised (.recordEntry "a" depositCall) =
      new.setStore "a" t := by
    have hstore : new.store "a" = .empty := rfl
    simp only [step, hstore, recordEntry, hrec]
  have hb : (new.setStore "a" t).step .lowercase blake3Advertised
      (.recordEntry "b" depositCall) = (new.setStore "a" t).setStore "b" t := by
    have hstore : (new.setStore "a" t).store "b" = .empty := rfl
    simp only [step, hstore, recordEntry, hrec]
  have hmanager : (depositEvents.foldl (step .lowercase blake3Advertised) new).manager "a" =
      ((LedgerSyncManager.new "a").updateLocalState
        (t.computeMerkleRoot .lowercase blake3Advertised) t.getLatestSeq).registerPeerState 0 "b"
          (t.computeMerkleRoot .lowercase blake3Advertised) t.getLatestSeq := by
    simp only [depositEvents, List.foldl_cons, List.foldl_nil, ha, hb]
    rfl
  have hpeer : ((depositEvents.foldl (step .lowercase blake3Advertised) new).manager
      "a").peers.lookup "b" =
        some ⟨"b", t.computeMerkleRoot .lowercase blake3Advertised, 1, 0⟩ := by
    rw [hmanager, hseq]
    rfl
  have hleaf : depositCall.entry .lowercase blake3Advertised =
      depositCall.entry .lowercase fun _ => depositLeaf := by
    have hdeposit : blake3Advertised depositCall.leafInput = depositLeaf :=
      tabulated_of_mem nodup_advertisedInputs (by simp [advertisedTable])
    simp only [RecordCall.entry, hdeposit]
  have hinputs : t.hashedInputs blake3Advertised = [depositBytes] := by
    refine hashedInputs_one ?_
    rw [rootTexts_eq, hrows, hleaf]
    rfl
  refine shared_of_not_needsSync .lowercase blake3Advertised depositEvents ?_ hpeer ?_
  · refine (tabulated_injOn nodup_advertisedInputs (by decide)).mono ?_
    rintro b ⟨u, ⟨earlier, hearlier, i, rfl⟩, hb⟩
    rcases store_depositEvents hrec hearlier i with hempty | hdeposit
    · rw [hempty] at hb
      obtain rfl : b = utf8 "empty" := List.mem_singleton.mp hb
      simp [advertisedTable]
    · rw [hdeposit, hinputs] at hb
      obtain rfl : b = depositBytes := List.mem_singleton.mp hb
      simp [advertisedTable]
  · rw [LedgerSyncManager.needsSync, hpeer, hmanager, hseq]
    simp [LedgerSyncManager.registerPeerState, LedgerSyncManager.updateLocalState]

end AdvertNet

end VaultKeeper
