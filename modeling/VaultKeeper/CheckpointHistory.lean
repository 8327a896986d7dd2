import Mathlib.Data.List.MinMax
import VaultKeeper.Checkpoint

/-!
# When Checkpoints Are Stored

`ledger/src/store.rs`: a checkpoint is filed under the latest number of the ledger, in a table
whose key that number is. A second checkpoint of one number is refused by the table, which a
ledger meets that takes checkpoints while nothing is recorded, the empty ledger included.

## Main results

* `LedgerStore.checkpoints_iff`: a checkpoint is stored, and is then the latest, exactly when
  all checkpoints there are have smaller numbers.
* `exists_of_mem_merkleRoots`: which calls of a run have left the checkpoints there are.
* `checkpoints_stored_iff`: all checkpoints of a run are stored exactly when an entry is recorded
  between any two of them.
-/

namespace VaultKeeper

open LedgerEntries

/-- `SELECT seq, root_hash FROM merkle_roots ORDER BY seq DESC LIMIT 1`. -/
def MerkleRoots.getLatestMerkleRoot (m : MerkleRoots) : Option (ℕ × String) :=
  (m.rows.argmax MerkleRoot.seq).map fun row => (row.seq, row.rootHash)

/-- A store with the tables `init_schema` creates. -/
def LedgerStore.new : LedgerStore where
  entries := .empty
  merkleRoots := { rows := [], seqs := List.nodup_nil }

/-- A call on a store. -/
inductive LedgerCall
  | recordEntry (c : RecordCall)
  | markSynced (upToSeq : ℤ)
  | storeMerkleCheckpoint (rootHash : String)

variable (hex : HexCodec) (blake3 : HashFn)

/-- One call. A call that fails changes no table. -/
def ledgerStep (s : LedgerStore) : LedgerCall → LedgerStore
  | .recordEntry c =>
      match s.entries.recordEntry hex blake3 c with
      | .ok (t, _) => { s with entries := t }
      | .error _ => s
  | .markSynced upToSeq => { s with entries := s.entries.markSynced upToSeq }
  | .storeMerkleCheckpoint rootHash =>
      match s.storeMerkleCheckpoint rootHash with
      | .ok s' => s'
      | .error _ => s

/-- The store after some calls on a fresh one. -/
def ledgerRun (calls : List LedgerCall) : LedgerStore :=
  calls.foldl (ledgerStep hex blake3) .new

/-- The checkpoint is stored, and the latest one is then that of the latest number with the root
just stored. -/
def LedgerStore.Checkpoints (s : LedgerStore) (rootHash : String) : Prop :=
  ∃ s', s.storeMerkleCheckpoint rootHash = .ok s' ∧
    s'.merkleRoots.getLatestMerkleRoot = some (s.entries.getLatestSeq, rootHash)

/-- Every checkpoint of a run is stored and is then the latest. -/
def CheckpointsStored (calls : List LedgerCall) : Prop :=
  ∀ before rootHash after, calls = before ++ .storeMerkleCheckpoint rootHash :: after →
    (ledgerRun hex blake3 before).Checkpoints rootHash

/-- Between any two checkpoints of a run an entry is recorded: the latest number has grown. -/
def RecordedBetween (calls : List LedgerCall) : Prop :=
  ∀ before rootHash between rootHash' after,
    calls = before ++ .storeMerkleCheckpoint rootHash :: between ++
      .storeMerkleCheckpoint rootHash' :: after →
    (ledgerRun hex blake3 before).entries.getLatestSeq <
      (ledgerRun hex blake3
        (before ++ .storeMerkleCheckpoint rootHash :: between)).entries.getLatestSeq

/-! ### One checkpoint -/

/-- A checkpoint of a number above all others is the latest. -/
theorem MerkleRoots.getLatestMerkleRoot_append {m m' : MerkleRoots} {row : MerkleRoot}
    (hrows : m'.rows = m.rows ++ [row]) (h : ∀ r ∈ m.rows, r.seq < row.seq) :
    m'.getLatestMerkleRoot = some (row.seq, row.rootHash) := by
  rw [getLatestMerkleRoot, hrows, List.argmax_concat]
  cases hmax : m.rows.argmax MerkleRoot.seq with
  | none => rfl
  | some r =>
      simp only [if_pos (h r (List.argmax_mem hmax))]
      rfl

/-- **One checkpoint**: among checkpoints of no larger numbers, it is stored and is then the
latest exactly when all of them have smaller ones. -/
theorem LedgerStore.checkpoints_iff {s : LedgerStore} {rootHash : String}
    (h : ∀ row ∈ s.merkleRoots.rows, row.seq ≤ s.entries.getLatestSeq) :
    s.Checkpoints rootHash ↔ ∀ row ∈ s.merkleRoots.rows, row.seq < s.entries.getLatestSeq := by
  constructor
  · rintro ⟨s', hstore, -⟩ row hrow
    have hnew := (storeMerkleCheckpoint_eq_ok hstore).2.1
    rw [← getLatestSeq_eq] at hnew
    refine lt_of_le_of_ne (h row hrow) fun heq => hnew ?_
    exact heq ▸ List.mem_map_of_mem hrow
  · intro hless
    have hnew : s.entries.getLatestSeq ∉ s.merkleRoots.rows.map MerkleRoot.seq := by
      intro hmem
      obtain ⟨row, hrow, hseq⟩ := List.mem_map.mp hmem
      exact (hless row hrow).ne hseq
    obtain ⟨s', hstore⟩ : ∃ s', s.storeMerkleCheckpoint rootHash = .ok s' := by
      rw [storeMerkleCheckpoint, MerkleRoots.storeMerkleRoot, dif_neg hnew]
      exact ⟨_, rfl⟩
    have hrows := (storeMerkleCheckpoint_eq_ok hstore).2.2
    rw [← getLatestSeq_eq] at hrows
    exact ⟨s', hstore, MerkleRoots.getLatestMerkleRoot_append hrows hless⟩

/-! ### Runs -/

variable {hex blake3}

/-- No call takes an entry away. -/
theorem getLatestSeq_ledgerStep_le (s : LedgerStore) (call : LedgerCall) :
    s.entries.getLatestSeq ≤ (ledgerStep hex blake3 s call).entries.getLatestSeq := by
  rw [getLatestSeq_eq, getLatestSeq_eq]
  cases call with
  | recordEntry c =>
      rw [ledgerStep]
      split
      · next t seq hrec =>
        rw [(insertEntry_eq_ok hrec).1, List.length_append]
        exact Nat.le_add_right _ _
      · exact le_rfl
  | markSynced upToSeq => simp [ledgerStep, markSynced]
  | storeMerkleCheckpoint rootHash =>
      rw [ledgerStep]
      split
      · next s' hstore => rw [(LedgerStore.storeMerkleCheckpoint_eq_ok hstore).1]
      · exact le_rfl

/-- What a call does to the checkpoints: nothing, or one more of the latest number. -/
theorem mem_merkleRoots_ledgerStep {s : LedgerStore} {call : LedgerCall} {row : MerkleRoot}
    (h : row ∈ (ledgerStep hex blake3 s call).merkleRoots.rows) :
    row ∈ s.merkleRoots.rows ∨
      ∃ rootHash, call = .storeMerkleCheckpoint rootHash ∧ row.seq = s.entries.getLatestSeq := by
  cases call with
  | recordEntry c =>
      rw [ledgerStep] at h
      split at h
      · exact Or.inl h
      · exact Or.inl h
  | markSynced upToSeq => exact Or.inl h
  | storeMerkleCheckpoint rootHash =>
      rw [ledgerStep] at h
      split at h
      · next s' hstore =>
        rw [(LedgerStore.storeMerkleCheckpoint_eq_ok hstore).2.2, List.mem_append,
          List.mem_singleton] at h
        refine h.imp_right fun hrow => ⟨rootHash, rfl, ?_⟩
        rw [hrow, getLatestSeq_eq]
      · exact Or.inl h

/-- No call takes a checkpoint away. -/
theorem merkleRoots_subset_ledgerStep (s : LedgerStore) (call : LedgerCall) :
    s.merkleRoots.rows ⊆ (ledgerStep hex blake3 s call).merkleRoots.rows := by
  cases call with
  | recordEntry c =>
      rw [ledgerStep]
      split
      · exact List.Subset.refl _
      · exact List.Subset.refl _
  | markSynced upToSeq => exact List.Subset.refl _
  | storeMerkleCheckpoint rootHash =>
      rw [ledgerStep]
      split
      · next s' hstore =>
        rw [(LedgerStore.storeMerkleCheckpoint_eq_ok hstore).2.2]
        exact List.subset_append_left _ _
      · exact List.Subset.refl _

theorem ledgerRun_append (before after : List LedgerCall) :
    ledgerRun hex blake3 (before ++ after) =
      after.foldl (ledgerStep hex blake3) (ledgerRun hex blake3 before) :=
  List.foldl_append

/-- The store only grows in a run. -/
theorem foldl_ledgerStep_grows (s : LedgerStore) (calls : List LedgerCall) :
    s.entries.getLatestSeq ≤ (calls.foldl (ledgerStep hex blake3) s).entries.getLatestSeq ∧
      s.merkleRoots.rows ⊆ (calls.foldl (ledgerStep hex blake3) s).merkleRoots.rows := by
  refine Runs.invariant_foldl (ledgerStep hex blake3) (G := fun _ _ => True)
    (I := fun t => s.entries.getLatestSeq ≤ t.entries.getLatestSeq ∧
      s.merkleRoots.rows ⊆ t.merkleRoots.rows)
    (fun t call ht _ => ?_) ⟨le_rfl, List.Subset.refl _⟩ fun _ _ => trivial
  exact ⟨ht.1.trans (getLatestSeq_ledgerStep_le t call),
    List.Subset.trans ht.2 (merkleRoots_subset_ledgerStep t call)⟩

/-- **Where checkpoints come from**: each was filed by a call of the run, under the latest number
of that time. -/
theorem exists_of_mem_merkleRoots {calls : List LedgerCall} {row : MerkleRoot}
    (h : row ∈ (ledgerRun hex blake3 calls).merkleRoots.rows) :
    ∃ before rootHash after, calls = before ++ .storeMerkleCheckpoint rootHash :: after ∧
      row.seq = (ledgerRun hex blake3 before).entries.getLatestSeq := by
  induction calls using List.reverseRecOn with
  | nil => simp [ledgerRun, LedgerStore.new] at h
  | append_singleton calls call ih =>
      rw [ledgerRun_append] at h
      rcases mem_merkleRoots_ledgerStep h with hrow | ⟨rootHash, rfl, hseq⟩
      · obtain ⟨before, rootHash, after, rfl, hseq⟩ := ih hrow
        exact ⟨before, rootHash, after ++ [call], by simp, hseq⟩
      · exact ⟨calls, rootHash, [], rfl, hseq⟩

/-- The checkpoints of a run are of numbers the ledger has. -/
theorem merkleRoots_seq_le {calls : List LedgerCall} :
    ∀ row ∈ (ledgerRun hex blake3 calls).merkleRoots.rows,
      row.seq ≤ (ledgerRun hex blake3 calls).entries.getLatestSeq := by
  intro row hrow
  obtain ⟨before, rootHash, after, rfl, hseq⟩ := exists_of_mem_merkleRoots hrow
  rw [hseq, ledgerRun_append]
  exact (foldl_ledgerStep_grows _ _).1

/-- **When checkpoints are stored**: in a run on a fresh ledger, every checkpoint is stored and is
then the latest, with its root, exactly when between any two checkpoints an entry is recorded. -/
theorem checkpoints_stored_iff (hex : HexCodec) (blake3 : HashFn) (calls : List LedgerCall) :
    CheckpointsStored hex blake3 calls ↔ RecordedBetween hex blake3 calls := by
  constructor
  · intro hall before rootHash between rootHash' after hcalls
    obtain ⟨s', hstore, -⟩ := hall before rootHash (between ++ .storeMerkleCheckpoint rootHash' ::
      after) (by simp [hcalls])
    have hlater := (LedgerStore.checkpoints_iff merkleRoots_seq_le).mp
      (hall (before ++ .storeMerkleCheckpoint rootHash :: between) rootHash' after hcalls)
    have hrows := (LedgerStore.storeMerkleCheckpoint_eq_ok hstore).2.2
    rw [← getLatestSeq_eq] at hrows
    refine hlater ⟨(ledgerRun hex blake3 before).entries.getLatestSeq, rootHash,
      (ledgerRun hex blake3 before).entries.getLatestSeq⟩ ?_
    rw [ledgerRun_append, List.foldl_cons, ledgerStep, hstore]
    refine (foldl_ledgerStep_grows s' between).2 ?_
    rw [hrows]
    exact List.mem_append_right _ (List.mem_singleton_self _)
  · intro hrecorded before rootHash after hcalls
    refine (LedgerStore.checkpoints_iff merkleRoots_seq_le).mpr fun row hrow => ?_
    obtain ⟨earlier, rootHash', between, rfl, hseq⟩ := exists_of_mem_merkleRoots hrow
    rw [hseq]
    exact hrecorded earlier rootHash' between rootHash after hcalls

/-- Two checkpoints of an empty ledger: the second is refused. -/
theorem second_checkpoint_refused :
    ¬ ∀ calls : List LedgerCall, CheckpointsStored .lowercase blake3Recorded calls := by
  intro hall
  have hlater := (LedgerStore.checkpoints_iff merkleRoots_seq_le).mp
    (hall [.storeMerkleCheckpoint "", .storeMerkleCheckpoint ""] [.storeMerkleCheckpoint ""] "" []
      rfl)
  exact absurd (hlater ⟨0, "", 0⟩ (List.mem_singleton_self _)) (lt_irrefl 0)

end VaultKeeper
