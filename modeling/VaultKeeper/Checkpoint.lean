import VaultKeeper.Recording
import VaultKeeper.Runs

/-!
# Checkpoints

`ledger/src/store.rs`: `store_merkle_checkpoint` files a root under the latest number of the
ledger. The root was computed by an earlier call, and the store is locked for one call at a
time, so that other threads may record entries between the two: the root then covers fewer
entries than the number it is filed under.

## Main results

* `CheckpointState.Invariant.step`: what every call keeps, a checkpoint only when no entry was
  recorded since its root was computed and the root covers all entries.
* `checkpoints_describe`: the checkpoints of a run whose steps all meet this condition
  describe the ledger they name.
-/

namespace VaultKeeper

open LedgerEntries

/-- A row of `merkle_roots`. -/
structure MerkleRoot where
  seq : ℕ
  rootHash : String
  entryCount : ℕ
deriving DecidableEq

/-- The table `merkle_roots`, whose primary key is `seq`. -/
structure MerkleRoots where
  rows : List MerkleRoot
  seqs : (rows.map MerkleRoot.seq).Nodup

/-- `schema::store_merkle_root`: insert a checkpoint; a second one of a number is refused. -/
def MerkleRoots.storeMerkleRoot (m : MerkleRoots) (seq : ℕ) (rootHash : String)
    (entryCount : ℕ) : Except SqlError MerkleRoots :=
  if h : seq ∈ m.rows.map MerkleRoot.seq then .error .uniqueViolation
  else .ok
    { rows := m.rows ++ [⟨seq, rootHash, entryCount⟩]
      seqs := by
        rw [List.map_append]
        exact m.seqs.append (List.nodup_singleton _) (by simpa using h) }

/-- The local ledger store: the two tables of its database. -/
structure LedgerStore where
  entries : LedgerEntries
  merkleRoots : MerkleRoots

/-- Store a Merkle root checkpoint. -/
def LedgerStore.storeMerkleCheckpoint (s : LedgerStore) (rootHash : String) :
    Except SqlError LedgerStore :=
  let seq := s.entries.getLatestSeq
  (s.merkleRoots.storeMerkleRoot seq rootHash seq).map fun m => { s with merkleRoots := m }

/-- What a checkpoint says of a ledger: its root is that of the entries with numbers up to
its own, and its count is their number. -/
def MerkleRoot.Describes (hex : HexCodec) (blake3 : HashFn) (row : MerkleRoot)
    (t : LedgerEntries) : Prop :=
  row.rootHash = textsRoot hex blake3
      ((t.rows.filter fun r => r.seq ≤ row.seq).map fun r => r.toValue.toText) ∧
    row.entryCount = (t.rows.filter fun r => r.seq ≤ row.seq).length

/-! ### The two calls and the calls between them -/

/-- A call on the shared store. -/
inductive StoreCall
  | recordEntry (c : RecordCall)
  | computeMerkleRoot
  | storeMerkleCheckpoint

/-- The store, and the thread that takes checkpoints: the root it has computed and not yet
stored, with the number of entries there were. -/
structure CheckpointState where
  store : LedgerStore
  computed : Option (String × ℕ)

/-- The state in which a new store is opened. -/
def CheckpointState.new : CheckpointState where
  store := { entries := .empty, merkleRoots := { rows := [], seqs := List.nodup_nil } }
  computed := none

variable (hex : HexCodec) (blake3 : HashFn)

/-- One call. A call that fails changes no table, and the thread drops the root it had. -/
def checkpointStep (s : CheckpointState) : StoreCall → CheckpointState
  | .recordEntry c =>
      match s.store.entries.recordEntry hex blake3 c with
      | .ok (t, _) => { s with store := { s.store with entries := t } }
      | .error _ => s
  | .computeMerkleRoot =>
      { s with
        computed := some
          (s.store.entries.computeMerkleRoot hex blake3, s.store.entries.rows.length) }
  | .storeMerkleCheckpoint =>
      match s.computed with
      | none => s
      | some (rootHash, _) =>
          match s.store.storeMerkleCheckpoint rootHash with
          | .ok store => { store := store, computed := none }
          | .error _ => { s with computed := none }

/-- Every checkpoint describes the ledger it names. -/
def CheckpointState.Described (s : CheckpointState) : Prop :=
  ∀ row ∈ s.store.merkleRoots.rows, row.Describes hex blake3 s.store.entries

/-- A checkpoint that is stored has as many entries as there were when its root was
computed, and no more than a root covers. -/
def Undisturbed (s : CheckpointState) : StoreCall → Prop
  | .storeMerkleCheckpoint =>
      ∀ rootHash entryCount, s.computed = some (rootHash, entryCount) →
        s.store.entries.rows.length ∉ s.store.merkleRoots.rows.map MerkleRoot.seq →
        s.store.entries.rows.length = entryCount ∧ entryCount ≤ rootLimit
  | _ => True

/-! ### Steps -/

variable {hex blake3}

/-- What a checkpoint that is stored does: one more row, under the count of the entries. -/
theorem LedgerStore.storeMerkleCheckpoint_eq_ok {s s' : LedgerStore} {rootHash : String}
    (h : s.storeMerkleCheckpoint rootHash = .ok s') :
    s'.entries = s.entries ∧ s.entries.rows.length ∉ s.merkleRoots.rows.map MerkleRoot.seq ∧
      s'.merkleRoots.rows = s.merkleRoots.rows ++
        [⟨s.entries.rows.length, rootHash, s.entries.rows.length⟩] := by
  rw [storeMerkleCheckpoint, getLatestSeq_eq, MerkleRoots.storeMerkleRoot] at h
  split at h
  · cases h
  · next hnew =>
    obtain rfl := Except.ok.inj h
    exact ⟨rfl, hnew, rfl⟩

/-- A checkpoint of the latest number describes the ledger, when its root is current and
covers all entries. -/
theorem describes_latest {t : LedgerEntries} (h : t.rows.length ≤ rootLimit) :
    MerkleRoot.Describes hex blake3
      ⟨t.rows.length, t.computeMerkleRoot hex blake3, t.rows.length⟩ t := by
  have hall : (t.rows.filter fun r => r.seq ≤ t.rows.length) = t.rows :=
    List.filter_eq_self.mpr fun r hr => by simpa using seq_le_of_mem hr
  refine ⟨?_, by rw [hall]⟩
  rw [hall, computeMerkleRoot_eq, rootTexts_eq, List.take_of_length_le h]

/-- A further row leaves what checkpoints of earlier numbers say. -/
theorem MerkleRoot.Describes.append {row : MerkleRoot} {t t' : LedgerEntries} {r : Row}
    (h : row.Describes hex blake3 t) (hrows : t'.rows = t.rows ++ [r]) (hseq : row.seq < r.seq) :
    row.Describes hex blake3 t' := by
  have hsame : (t'.rows.filter fun r => r.seq ≤ row.seq) =
      t.rows.filter fun r => r.seq ≤ row.seq := by
    rw [hrows, List.filter_append, List.filter_singleton]
    simp [Nat.not_le.mpr hseq]
  rw [Describes, hsame]
  exact h

/-- What holds between calls: the checkpoints describe the ledger and are of numbers it has,
and a computed root is current until an entry is recorded. -/
structure CheckpointState.Invariant (hex : HexCodec) (blake3 : HashFn) (s : CheckpointState) :
    Prop where
  described : s.Described hex blake3
  seqs : ∀ row ∈ s.store.merkleRoots.rows, row.seq ≤ s.store.entries.rows.length
  computed : ∀ rootHash entryCount, s.computed = some (rootHash, entryCount) →
    entryCount ≤ s.store.entries.rows.length ∧
      (s.store.entries.rows.length = entryCount →
        rootHash = s.store.entries.computeMerkleRoot hex blake3)

theorem CheckpointState.new_invariant : CheckpointState.new.Invariant hex blake3 where
  described := by simp [Described, new]
  seqs := by simp [new]
  computed := by simp [new]

theorem CheckpointState.Invariant.recordEntry {s : CheckpointState}
    (hs : s.Invariant hex blake3) {t : LedgerEntries} {r : Row}
    (hrows : t.rows = s.store.entries.rows ++ [r])
    (hseq : r.seq = s.store.entries.rows.length + 1) :
    CheckpointState.Invariant hex blake3
      { s with store := { s.store with entries := t } } where
  described row hrow := by
    have hle := hs.seqs row hrow
    exact (hs.described row hrow).append hrows (by omega)
  seqs row hrow := by
    have hle := hs.seqs row hrow
    rw [hrows, List.length_append]
    omega
  computed rootHash entryCount hc := by
    have hle := (hs.computed rootHash entryCount hc).1
    rw [hrows, List.length_append, List.length_singleton]
    -- the count is no longer that of the entries
    exact ⟨by omega, fun hcount => by omega⟩

theorem CheckpointState.Invariant.storeMerkleCheckpoint {s : CheckpointState}
    (hs : s.Invariant hex blake3) (he : Undisturbed s .storeMerkleCheckpoint) {rootHash : String}
    {entryCount : ℕ} (hc : s.computed = some (rootHash, entryCount)) {store : LedgerStore}
    (hstore : s.store.storeMerkleCheckpoint rootHash = .ok store) :
    CheckpointState.Invariant hex blake3 { store := store, computed := none } := by
  obtain ⟨hentries, hnew, hrows⟩ := LedgerStore.storeMerkleCheckpoint_eq_ok hstore
  obtain ⟨hcount, hlimit⟩ := he rootHash entryCount hc hnew
  have hroot := (hs.computed rootHash entryCount hc).2 hcount
  refine ⟨fun row hrow => ?_, fun row hrow => ?_, by simp⟩
  · rw [hrows, List.mem_append, List.mem_singleton] at hrow
    rcases hrow with hrow | rfl
    · exact hentries ▸ hs.described row hrow
    · rw [hentries, hroot]
      exact describes_latest (hcount.trans_le hlimit)
  · rw [hrows, List.mem_append, List.mem_singleton] at hrow
    rcases hrow with hrow | rfl
    · exact hentries ▸ hs.seqs row hrow
    · exact hentries ▸ le_rfl

/-- **The step**: every call keeps the invariant, a checkpoint when it is undisturbed. -/
theorem CheckpointState.Invariant.step {s : CheckpointState} (hs : s.Invariant hex blake3)
    (e : StoreCall) (he : Undisturbed s e) :
    (checkpointStep hex blake3 s e).Invariant hex blake3 := by
  cases e with
  | recordEntry c =>
      rw [checkpointStep]
      split
      · next t seq hrec => exact hs.recordEntry (insertEntry_eq_ok hrec).1 rfl
      · exact hs
  | computeMerkleRoot =>
      refine ⟨hs.described, hs.seqs, fun rootHash n hc => ?_⟩
      simp only [checkpointStep, Option.some.injEq, Prod.mk.injEq] at hc
      obtain ⟨rfl, rfl⟩ := hc
      exact ⟨le_rfl, fun _ => rfl⟩
  | storeMerkleCheckpoint =>
      rw [checkpointStep]
      split
      · exact hs
      · next rootHash n hc =>
        split
        · next store hstore => exact hs.storeMerkleCheckpoint he hc hstore
        · exact ⟨hs.described, hs.seqs, by simp⟩

/-! ### Runs -/

/-- **Checkpoints of a run**: when every checkpoint that is stored has as many entries as
there were when its root was computed, and no more than a root covers, all checkpoints
describe the ledger they name, whatever calls came between. -/
theorem checkpoints_describe (hex : HexCodec) (blake3 : HashFn) (calls : List StoreCall)
    (h : ∀ v ∈ Runs.visits (checkpointStep hex blake3) .new calls, Undisturbed v.1 v.2) :
    (calls.foldl (checkpointStep hex blake3) .new).Described hex blake3 :=
  (Runs.invariant_foldl (checkpointStep hex blake3) (I := (·.Invariant hex blake3))
    (fun _ e hs he => hs.step e he) CheckpointState.new_invariant h).described

/-- A checkpoint taken after a deposit. -/
theorem checkpoints_describe_deposit :
    ([.recordEntry depositCall, .computeMerkleRoot, .storeMerkleCheckpoint].foldl
      (checkpointStep .lowercase blake3Recorded) .new).Described .lowercase blake3Recorded := by
  obtain ⟨t₁, -, hrec, -, -⟩ := exists_recorded
  have hlen : t₁.rows.length ≤ rootLimit := by
    rw [(insertEntry_eq_ok hrec).1]
    decide
  refine checkpoints_describe .lowercase blake3Recorded _ ?_
  simp [checkpointStep, CheckpointState.new, hrec, Undisturbed, hlen]

/-- A charge recorded between the two calls: the root after the deposit is filed under the
number of the charge. -/
theorem checkpoint_of_older_root :
    ¬ ∀ calls : List StoreCall, (calls.foldl (checkpointStep .lowercase blake3Recorded)
      .new).Described .lowercase blake3Recorded := by
  intro hall
  obtain ⟨t₁, t₂, hrec₁, hrec₂, hinj⟩ := exists_recorded
  have hrows₁ := (insertEntry_eq_ok hrec₁).1
  have hrows₂ := (insertEntry_eq_ok hrec₂).1
  have hlen₁ : t₁.rows.length = 1 := by
    rw [hrows₁]
    rfl
  have hlen₂ : t₂.rows.length = 2 := by
    rw [hrows₂, List.length_append, hlen₁]
    rfl
  have hrun := hall [.recordEntry depositCall, .computeMerkleRoot, .recordEntry chargeCall,
    .storeMerkleCheckpoint]
  -- the one checkpoint is of number 2, with the root after the deposit
  have hdesc : MerkleRoot.Describes .lowercase blake3Recorded
      ⟨t₂.rows.length, t₁.computeMerkleRoot .lowercase blake3Recorded, t₂.rows.length⟩ t₂ := by
    simpa [CheckpointState.Described, checkpointStep, CheckpointState.new, hrec₁, hrec₂,
      LedgerStore.storeMerkleCheckpoint, MerkleRoots.storeMerkleRoot, getLatestSeq_eq,
      Except.map] using hrun
  have hcurrent := @describes_latest .lowercase blake3Recorded t₂ (by rw [hlen₂]; decide)
  have hchange := (@root_append_iff .lowercase blake3Recorded t₁ t₂ _ hrows₂ hinj).mpr
    (by rw [hlen₁]; decide)
  exact hchange (hcurrent.1.trans hdesc.1.symm)

end VaultKeeper
