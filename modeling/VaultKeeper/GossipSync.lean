import Mathlib.Data.List.AList
import VaultKeeper.Conflict
import VaultKeeper.KeysetPaging
import VaultKeeper.Store

/-!
# Gossip Synchronization

`ledger/src/gossip_sync.rs`: a node advertises the root and the latest number of its
ledger, asks a peer for the entries after some number when the two differ, and resolves
the conflicts between the entries that arrive and its own. The clock and the random
request id are arguments of the functions that read them.

Two things are missing from the exchange. The number asked from is computed from the two
latest numbers, which say nothing about where the ledgers differ; and only conflicts are
answered, so that an arriving entry whose id is not known locally is dropped.

## Main results

* `next_key`: the number of the last entry of a page is the key to go on after.
* `LedgerEntries.readPages_eq`: reading page by page returns all entries after a number.
* `request_covers_iff`: when a request covers everything the peer has and the node has not.
* `merged_ids_iff`: when the answer to a request represents every id that occurred.
-/

namespace VaultKeeper

/-- Sync message types. -/
inductive SyncMessage
  | stateAdvert (peerId merkleRoot : String) (latestSeq : ℤ)
  | entryRequest (fromSeq : ℤ) (requestId : String)
  | entryResponse (requestId : String) (entries : List Value)
  | conflictNotify (conflicts : List Value)

/-- Sync state tracker for a peer. -/
structure PeerSyncState where
  peerId : String
  merkleRoot : String
  latestSeq : ℤ
  lastSync : ℕ

/-- Ledger sync manager. A pending request is kept with the peer it went to. -/
structure LedgerSyncManager where
  localPeerId : String
  localMerkleRoot : String
  localLatestSeq : ℤ
  peers : AList fun _ : String => PeerSyncState
  conflictResolver : ConflictResolver
  pendingRequests : AList fun _ : String => String

/-- The value of an `i64` operation, wrapped around. -/
def wrapI64 (n : ℤ) : ℤ :=
  n.bmod (2 ^ 64)

theorem wrapI64_of_mem {n : ℤ} (hlow : -(2 ^ 63) ≤ n) (hhigh : n < 2 ^ 63) : wrapI64 n = n := by
  rw [wrapI64]
  rw [Int.bmod_def]
  omega

namespace LedgerSyncManager

/-- Create a new sync manager. -/
def new (localPeerId : String) : LedgerSyncManager where
  localPeerId := localPeerId
  localMerkleRoot := ""
  localLatestSeq := 0
  peers := ∅
  conflictResolver := .new
  pendingRequests := ∅

/-- Update the local ledger state. -/
def updateLocalState (m : LedgerSyncManager) (merkleRoot : String) (latestSeq : ℤ) :
    LedgerSyncManager :=
  { m with localMerkleRoot := merkleRoot, localLatestSeq := latestSeq }

/-- Register a peer's advertised state. -/
def registerPeerState (m : LedgerSyncManager) (now : ℕ) (peerId merkleRoot : String)
    (latestSeq : ℤ) : LedgerSyncManager :=
  { m with
    peers := m.peers.insert peerId
      { peerId := peerId, merkleRoot := merkleRoot, latestSeq := latestSeq, lastSync := now } }

/-- Whether sync is needed with a peer: its root differs, or it has more entries. -/
def needsSync (m : LedgerSyncManager) (peerId : String) : Bool :=
  match m.peers.lookup peerId with
  | some peer =>
      if peer.merkleRoot ≠ m.localMerkleRoot then true
      else if m.localLatestSeq < peer.latestSeq then true
      else false
  | none => false

/-- The number after which entries are asked from a peer. -/
def requestFrom (m : LedgerSyncManager) (peerId : String) : ℤ :=
  match m.peers.lookup peerId with
  | some peer => max 0 (wrapI64 (wrapI64 (m.localLatestSeq - peer.latestSeq) + 1))
  | none => 0

/-- Create an entry request for a peer. -/
def createEntryRequest (m : LedgerSyncManager) (requestId peerId : String) :
    SyncMessage × LedgerSyncManager :=
  (.entryRequest (m.requestFrom peerId) requestId,
    { m with pendingRequests := m.pendingRequests.insert requestId peerId })

/-- Create a state advertisement message. -/
def createStateAdvert (m : LedgerSyncManager) : SyncMessage :=
  .stateAdvert m.localPeerId m.localMerkleRoot m.localLatestSeq

/-- Resolve conflicts in order, without votes. -/
def resolveAll (r : ConflictResolver) : List LedgerConflict → List ResolveResult × ConflictResolver
  | [] => ([], r)
  | c :: cs =>
      let (result, r) := r.resolve c 0 0
      let (results, r) := resolveAll r cs
      (result :: results, r)

/-- Process incoming entries from a peer, once for a pending request. -/
def processEntries (m : LedgerSyncManager) (requestId : String)
    (entries localEntries : List Value) : List ResolveResult × LedgerSyncManager :=
  match m.pendingRequests.lookup requestId with
  | none => ([], m)
  | some _ =>
      let conflicts := ConflictResolver.detectConflicts localEntries entries
      let (results, resolver) := resolveAll m.conflictResolver conflicts
      (results,
        { m with
          conflictResolver := resolver
          pendingRequests := m.pendingRequests.erase requestId })

/-- Each result is the local or the remote entry of a conflict. -/
theorem entry_of_mem_resolveAll {r : ConflictResolver} {cs : List LedgerConflict}
    {result : ResolveResult} (h : result ∈ (resolveAll r cs).1) :
    ∃ c ∈ cs, result.entry = c.localEntry ∨ result.entry = c.remoteEntry := by
  induction cs generalizing r with
  | nil => simp [resolveAll] at h
  | cons c cs ih =>
      simp only [resolveAll, List.mem_cons] at h
      rcases h with rfl | h
      · refine ⟨c, List.mem_cons_self .., ?_⟩
        rw [ConflictResolver.resolve]
        split
        · exact Or.inr rfl
        · exact Or.inl rfl
      · obtain ⟨d, hd, hentry⟩ := ih h
        exact ⟨d, List.mem_cons_of_mem _ hd, hentry⟩

/-- Each result of processing entries has an id that occurs locally. -/
theorem id_of_mem_processEntries {m : LedgerSyncManager} {requestId : String}
    {entries localEntries : List Value} {result : ResolveResult}
    (h : result ∈ (m.processEntries requestId entries localEntries).1) :
    ∃ id, idOf result.entry = some id ∧ ∃ e ∈ localEntries, idOf e = some id := by
  rw [processEntries] at h
  cases hpending : m.pendingRequests.lookup requestId with
  | none => simp [hpending] at h
  | some peer =>
      rw [hpending] at h
      obtain ⟨c, hc, hentry⟩ := entry_of_mem_resolveAll h
      obtain ⟨remote, -, id, localEntry, hremote, hlocal, -, rfl⟩ :=
        ConflictResolver.mem_detectConflicts.mp hc
      obtain ⟨hmem, hid⟩ := ConflictResolver.mem_of_localMap hlocal
      refine ⟨id, ?_, localEntry, hmem, hid⟩
      rcases hentry with hentry | hentry
      · rw [hentry]
        exact hid
      · rw [hentry]
        exact hremote

end LedgerSyncManager

/-! ### Asking for entries -/

/-- The number of a row, as the key that entries are asked for by. -/
def Row.key (r : Row) : ℤ :=
  r.seq

/-- A row's number is read back from its object, as far as the column holds it. -/
theorem Row.seqOf_toValue {r : Row} (h : r.seq < 2 ^ 63) : seqOf r.toValue = r.key := by
  have hrange : -(2 ^ 63) ≤ (r.seq : ℤ) ∧ (r.seq : ℤ) < 2 ^ 63 := by omega
  have hget : r.toValue.get "seq" = .number (.int r.seq) := rfl
  rw [seqOf, hget, Value.asI64, if_pos hrange, Option.getD_some, key]

/-- The number of the last entry of a page is the key to go on after. -/
theorem next_key {page : List Row} (h : ∀ r ∈ page, r.seq < 2 ^ 63) (fromSeq : ℤ) :
    ((page.map Row.toValue).getLast?.map seqOf).getD fromSeq =
      KeysetPaging.next Row.key fromSeq page := by
  rw [List.getLast?_map, KeysetPaging.next]
  cases hlast : page.getLast? with
  | none => rfl
  | some last =>
      simp only [Option.map_some, Option.getD_some,
        Row.seqOf_toValue (h last (List.mem_of_getLast? hlast))]

namespace LedgerEntries

variable (t : LedgerEntries)

/-- The entries of a ledger. -/
def values : List Value :=
  t.rows.map Row.toValue

/-- The entries after a number, asked for page by page: each page is asked from the number
of the last entry received, until one is empty. -/
def readPages : ℕ → ℤ → List Value
  | 0, _ => []
  | fuel + 1, fromSeq =>
      match (t.getPage fromSeq).getLast? with
      | none => []
      | some last => t.getPage fromSeq ++ readPages fuel (seqOf last)

/-- The entries after a number; a page more than there are entries is enough. -/
def readFrom (fromSeq : ℤ) : List Value :=
  t.readPages (t.rows.length + 1) fromSeq

theorem seqOf_toValue {t : LedgerEntries} {r : Row} (h : r ∈ t.rows) :
    seqOf r.toValue = r.seq :=
  Row.seqOf_toValue ((seq_le_of_mem h).trans_lt t.size)

/-- The rows of a ledger are in the order of their keys. -/
theorem increasing_key : KeysetPaging.Increasing Row.key t.rows := by
  have hseqs : (t.rows.map Row.seq).Pairwise (· < ·) := by
    rw [t.seqs]
    exact List.pairwise_lt_range' ..
  exact (List.pairwise_map.mp hseqs).imp fun h => Int.ofNat_lt.mpr h

/-- **Paging**: the pages after a number are all entries after it. -/
theorem readPages_eq (fuel : ℕ) (fromSeq : ℤ)
    (h : (KeysetPaging.after Row.key fromSeq t.rows).length < fuel) :
    t.readPages fuel fromSeq =
      (KeysetPaging.after Row.key fromSeq t.rows).map Row.toValue := by
  induction fuel generalizing fromSeq with
  | zero => omega
  | succ fuel ih =>
      have hpage : t.getPage fromSeq =
          ((KeysetPaging.after Row.key fromSeq t.rows).take pageLimit).map Row.toValue := rfl
      rw [readPages]
      cases hlast : (t.getPage fromSeq).getLast? with
      | none =>
          have hempty : KeysetPaging.after Row.key fromSeq t.rows = [] := by
            simpa [hpage, pageLimit_pos.ne'] using List.getLast?_eq_none_iff.mp hlast
          simp [hempty]
      | some last =>
          -- the next page starts where this one ends
          have hnext : seqOf last = KeysetPaging.next Row.key fromSeq
              ((KeysetPaging.after Row.key fromSeq t.rows).take pageLimit) := by
            rw [← next_key, ← hpage, hlast]
            · rfl
            · intro r hr
              have hmem := (List.mem_filter.mp (List.mem_of_mem_take hr)).1
              exact (seq_le_of_mem hmem).trans_lt t.size
          have hne : KeysetPaging.after Row.key fromSeq t.rows ≠ [] := by
            intro hnil
            simp [hpage, hnil] at hlast
          have hless := KeysetPaging.length_after_next_lt t.increasing_key pageLimit_pos hne
          have hread := ih (seqOf last) (by
            rw [hnext]
            omega)
          simp only
          rw [hread, hnext, KeysetPaging.after_next t.increasing_key, hpage, ← List.map_append,
            List.take_append_drop]

theorem readFrom_natCast (k : ℕ) : t.readFrom k = (t.rows.drop k).map Row.toValue := by
  have hafter : KeysetPaging.after Row.key k t.rows = t.rows.drop k := filter_seq_eq_drop t k
  rw [readFrom, readPages_eq, hafter]
  rw [hafter, List.length_drop]
  omega

/-- An entry that two ledgers share has one place in both. -/
theorem getElem?_values_of_mem {t : LedgerEntries} {r : Row} {i : ℕ} (hseq : r.seq = i + 1)
    (h : r.toValue ∈ t.values) : t.values[i]? = some r.toValue := by
  obtain ⟨s, hs, hvalue⟩ := List.mem_map.mp h
  obtain ⟨j, hj⟩ := List.mem_iff_getElem?.mp hs
  have hsame : s.seq = r.seq := by
    simp only [Row.toValue, Row.fields, Value.object.injEq, List.cons.injEq, Prod.mk.injEq,
      Value.number.injEq, JsonNumber.int.injEq, Nat.cast_inj, true_and] at hvalue
    exact hvalue.2.2.2.2.2.2.1
  obtain rfl : j = i := by
    have hj' := seq_of_getElem? hj
    omega
  rw [values, List.getElem?_map, hj, Option.map_some, hvalue]

/-- The entries of a ledger are told apart by their numbers. -/
theorem nodup_values : t.values.Nodup := by
  refine List.Nodup.of_map seqOf ?_
  have hseqs : t.values.map seqOf = (t.rows.map Row.seq).map ((↑) : ℕ → ℤ) := by
    rw [values, List.map_map, List.map_map]
    refine List.map_congr_left fun r hr => ?_
    rw [Function.comp_apply, Function.comp_apply, seqOf_toValue hr]
  rw [hseqs, t.seqs]
  exact (List.nodup_range' ..).map Nat.cast_injective

/-- The first `k` entries of one ledger all occur in another exactly when they are its
first entries. -/
theorem take_values_prefix_iff (l p : LedgerEntries) (k : ℕ) :
    p.values.take k <+: l.values ↔ ∀ e ∈ p.values.take k, e ∈ l.values := by
  constructor
  · exact fun hprefix e he => hprefix.subset he
  · intro hall
    rw [List.prefix_iff_getElem?]
    intro i hi
    have hmem := hall _ (List.getElem_mem hi)
    rw [List.length_take, values, List.length_map] at hi
    have hvalue : (p.values.take k)[i] = (p.rows[i]).toValue := by simp [values]
    rw [hvalue] at hmem ⊢
    exact getElem?_values_of_mem (seq_of_getElem? (List.getElem?_eq_getElem _)) hmem

end LedgerEntries

section Coverage

variable (hex : HexCodec) (blake3 : HashFn)

/-- A node that tracks its own ledger and has the advertised state of a peer's. -/
def LedgerSyncManager.tracking (m : LedgerSyncManager) (now : ℕ) (peerId : String)
    (l p : LedgerEntries) : LedgerSyncManager :=
  (m.updateLocalState (l.computeMerkleRoot hex blake3) l.getLatestSeq).registerPeerState now
    peerId (p.computeMerkleRoot hex blake3) p.getLatestSeq

/-- The entries a peer returns include all it has and the node has not. -/
def Covers (l p : LedgerEntries) (fromSeq : ℤ) : Prop :=
  ∀ e ∈ p.values, e ∉ l.values → e ∈ p.readFrom fromSeq

/-- A request from the start covers everything. -/
theorem covers_zero (l p : LedgerEntries) : Covers l p 0 := by
  intro e he _
  rw [← Nat.cast_zero, p.readFrom_natCast]
  exact he

/-- A request from number `k` covers what is missing exactly when the first `k` entries of
the peer are the first entries of the node. -/
theorem covers_natCast_iff (l p : LedgerEntries) (k : ℕ) :
    Covers l p k ↔ p.values.take k <+: l.values := by
  rw [LedgerEntries.take_values_prefix_iff, Covers, p.readFrom_natCast, List.map_drop]
  change (∀ e ∈ p.values, e ∉ l.values → e ∈ p.values.drop k) ↔ _
  constructor
  · intro hcovers e he
    by_contra hmissing
    exact List.disjoint_take_drop p.nodup_values le_rfl he
      (hcovers e (List.mem_of_mem_take he) hmissing)
  · intro hfront e he hmissing
    rw [← List.take_append_drop k p.values, List.mem_append] at he
    exact he.resolve_left fun htake => hmissing (hfront e htake)

/-- The number asked from: the difference of the latest numbers plus one, or the start when
the peer is ahead or has no entry. -/
theorem requestFrom_tracking (m : LedgerSyncManager) (now : ℕ) (peerId : String)
    (l p : LedgerEntries) :
    (m.tracking hex blake3 now peerId l p).requestFrom peerId =
      max 0 (wrapI64 (wrapI64 ((l.rows.length : ℤ) - p.rows.length) + 1)) := by
  simp [LedgerSyncManager.requestFrom, LedgerSyncManager.tracking,
    LedgerSyncManager.registerPeerState, LedgerSyncManager.updateLocalState,
    AList.lookup_insert, LedgerEntries.getLatestSeq_eq]

/-- A request covers what is missing exactly when the peer has more entries, or its first
`local - peer + 1` entries are the first entries of the node. -/
theorem covers_requestFrom_iff (m : LedgerSyncManager) (now : ℕ) (peerId : String)
    (l p : LedgerEntries) :
    Covers l p ((m.tracking hex blake3 now peerId l p).requestFrom peerId) ↔
      l.values.length < p.values.length ∨
        p.values.take (l.values.length - p.values.length + 1) <+: l.values := by
  have hl := l.size
  have hp := p.size
  have hdiff : wrapI64 ((l.rows.length : ℤ) - p.rows.length) =
      (l.rows.length : ℤ) - p.rows.length := wrapI64_of_mem (by omega) (by omega)
  rw [requestFrom_tracking, hdiff]
  simp only [LedgerEntries.values, List.length_map]
  by_cases hahead : l.rows.length < p.rows.length
  · rw [wrapI64_of_mem (by omega) (by omega), max_eq_left (by omega)]
    exact iff_of_true (covers_zero l p) (Or.inl hahead)
  · by_cases hempty : p.rows.length = 0
    · -- nothing can be missing, whatever the addition wraps to
      have hnil : p.rows = [] := List.length_eq_zero_iff.mp hempty
      refine iff_of_true ?_ (Or.inr ?_)
      · intro e he
        simp [LedgerEntries.values, hnil] at he
      · simp [hnil]
    · have hfrom : max 0 (wrapI64 ((l.rows.length : ℤ) - p.rows.length + 1)) =
          ((l.rows.length - p.rows.length + 1 : ℕ) : ℤ) := by
        rw [wrapI64_of_mem (by omega) (by omega)]
        omega
      rw [hfrom, covers_natCast_iff]
      exact (or_iff_right hahead).symm

/-- **What a request covers**: whenever sync is needed with a peer, the entries it returns
include all it has and the node has not exactly when, whenever sync is needed, the peer
has more entries or its first `local - peer + 1` entries are the first of the node. -/
theorem request_covers_iff (m : LedgerSyncManager) (now : ℕ) (requestId peerId : String)
    (l p : LedgerEntries) :
    ∃ fromSeq,
      ((m.tracking hex blake3 now peerId l p).createEntryRequest requestId peerId).1 =
          .entryRequest fromSeq requestId ∧
        (((m.tracking hex blake3 now peerId l p).needsSync peerId = true →
            Covers l p fromSeq) ↔
          ((m.tracking hex blake3 now peerId l p).needsSync peerId = true →
            l.values.length < p.values.length ∨
              p.values.take (l.values.length - p.values.length + 1) <+: l.values)) :=
  ⟨_, rfl, imp_congr_right fun _ => covers_requestFrom_iff hex blake3 m now peerId l p⟩

/-- Two ledgers of one entry each, a deposit and a charge: the peer is asked for what comes
after its first entry, and the charge is not returned. -/
theorem first_entry_not_covered :
    ¬ ∀ (hex : HexCodec) (blake3 : HashFn) (m : LedgerSyncManager) (now : ℕ)
      (requestId peerId : String) (es fs : List Entry) (l p : LedgerEntries),
      LedgerEntries.empty.insertAll es = .ok l → LedgerEntries.empty.insertAll fs = .ok p →
      ∀ fromSeq, ((m.tracking hex blake3 now peerId l p).createEntryRequest requestId
          peerId).1 = .entryRequest fromSeq requestId →
        (m.tracking hex blake3 now peerId l p).needsSync peerId = true →
        Covers l p fromSeq := by
  intro hall
  obtain ⟨l, hl, hlrows, hltexts⟩ := LedgerEntries.exists_insertAll
    [LedgerEntries.depositEntry] (by decide) (by decide)
  obtain ⟨p, hp, hprows, hptexts⟩ := LedgerEntries.exists_insertAll
    [LedgerEntries.chargeEntry] (by decide) (by decide)
  have hroots := LedgerEntries.deposit_charge_roots_ne hltexts hptexts
  have hcovers := hall .lowercase LedgerEntries.blake3Orders (.new "peer1") 0 "req1" "peer2"
    _ _ l p hl hp _ rfl (by
      simp [LedgerSyncManager.needsSync, LedgerSyncManager.tracking,
        LedgerSyncManager.registerPeerState, LedgerSyncManager.updateLocalState,
        AList.lookup_insert, hroots])
  rw [covers_requestFrom_iff] at hcovers
  simp [LedgerEntries.values, hlrows, hprows, LedgerEntries.rowsOf, Row.toValue, Row.fields,
    LedgerEntries.depositEntry, LedgerEntries.chargeEntry] at hcovers

end Coverage

/-! ### Applying the answer -/

/-- The ids that occur in a ledger. -/
def idsOf (ledger : List Value) : List String :=
  ledger.filterMap idOf

/-- Apply a result to a ledger: replace the entries with its id, or insert it. -/
def applyResult (ledger : List Value) (result : ResolveResult) : List Value :=
  if ∃ e ∈ ledger, idOf e = idOf result.entry then
    ledger.map fun e => if idOf e = idOf result.entry then result.entry else e
  else ledger ++ [result.entry]

/-- Apply results in order. -/
def applyResults (ledger : List Value) (results : List ResolveResult) : List Value :=
  results.foldl applyResult ledger

theorem mem_idsOf {ledger : List Value} {id : String} :
    id ∈ idsOf ledger ↔ ∃ e ∈ ledger, idOf e = some id :=
  List.mem_filterMap

/-- A result with a known id changes no id of the ledger. -/
theorem idsOf_applyResult {ledger : List Value} {result : ResolveResult}
    (h : ∃ e ∈ ledger, idOf e = idOf result.entry) :
    idsOf (applyResult ledger result) = idsOf ledger := by
  rw [applyResult, if_pos h, idsOf, List.filterMap_map]
  refine List.filterMap_congr fun e _ => ?_
  simp only [Function.comp_apply]
  split
  · rename_i hid
    exact hid.symm
  · rfl

/-- Results with known ids change no id of the ledger. -/
theorem idsOf_applyResults {ledger : List Value} {results : List ResolveResult}
    (h : ∀ result ∈ results, ∃ id, idOf result.entry = some id ∧ id ∈ idsOf ledger) :
    idsOf (applyResults ledger results) = idsOf ledger := by
  induction results generalizing ledger with
  | nil => rfl
  | cons result rest ih =>
      obtain ⟨id, hid, hmem⟩ := h result (List.mem_cons_self ..)
      have hknown : ∃ e ∈ ledger, idOf e = idOf result.entry := by
        rw [hid]
        exact mem_idsOf.mp hmem
      have hstep := idsOf_applyResult hknown
      have hrest : idsOf (applyResults (applyResult ledger result) rest) =
          idsOf (applyResult ledger result) := by
        refine ih fun r hr => ?_
        rw [hstep]
        exact h r (List.mem_cons_of_mem _ hr)
      exact hrest.trans hstep

/-- **What a sync represents**: the ledger after processing entries contains an entry for
every id that occurs locally or remotely exactly when every remote id occurs locally. -/
theorem merged_ids_iff (m : LedgerSyncManager) (requestId : String)
    (localEntries remoteEntries : List Value) :
    (∀ id, id ∈ idsOf localEntries ∨ id ∈ idsOf remoteEntries →
        id ∈ idsOf (applyResults localEntries
          (m.processEntries requestId remoteEntries localEntries).1)) ↔
      ∀ id ∈ idsOf remoteEntries, id ∈ idsOf localEntries := by
  have hmerged : idsOf (applyResults localEntries
      (m.processEntries requestId remoteEntries localEntries).1) = idsOf localEntries := by
    refine idsOf_applyResults fun result hresult => ?_
    obtain ⟨id, hid, hlocal⟩ := LedgerSyncManager.id_of_mem_processEntries hresult
    exact ⟨id, hid, mem_idsOf.mpr hlocal⟩
  rw [hmerged]
  exact ⟨fun h id hid => h id (Or.inr hid), fun h id hid => hid.elim (fun hl => hl) (h id)⟩

/-- An entry with an id and a timestamp. -/
def syncEntry (id : String) (seq : ℤ) (timestamp : String) : Value :=
  .object [("id", .string id), ("seq", .number (.int seq)), ("timestamp", .string timestamp)]

/-- The peer's entry `tx2` is asked for, arrives, and is dropped. -/
theorem remote_entry_dropped :
    ¬ ∀ (m : LedgerSyncManager) (requestId peerId : String),
      m.pendingRequests.lookup requestId = some peerId →
      ∀ localEntries remoteEntries : List Value, (idsOf localEntries).Nodup →
        (idsOf remoteEntries).Nodup →
        ∀ id, id ∈ idsOf localEntries ∨ id ∈ idsOf remoteEntries →
          id ∈ idsOf (applyResults localEntries
            (m.processEntries requestId remoteEntries localEntries).1) := by
  intro hall
  have hmem := hall ((LedgerSyncManager.new "peer1").createEntryRequest "req1" "peer2").2
    "req1" "peer2" (AList.lookup_insert _)
    [syncEntry "tx1" 1 "2024-01-01T00:00:00Z"] [syncEntry "tx2" 2 "2024-01-01T01:00:00Z"]
    (by decide) (by decide) "tx2" (by decide)
  exact absurd hmem (by decide)

end VaultKeeper
