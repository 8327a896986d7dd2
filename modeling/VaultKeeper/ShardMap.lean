import VaultKeeper.ShardLayout

/-!
# The Shard Store as a Map

What a run of stores and deletes leaves stored is a map from chunks and shard indices to
data, read off the calls alone: the data of the last store that no delete came after. As
long as all calls succeed, the disk holds this map, each shard with metadata that verifies
it; and the base path has a directory for every chunk that a shard was ever stored of,
which no delete takes away.

## Main results

* `holds_run`: after a run whose calls succeed the disk holds what the calls leave stored.
* `retrieve_stored`: and this is what is retrieved, and what exists.
* `listed_chunks_iff`: the listing is exact in the runs that leave no chunk without a shard.
-/

namespace VaultKeeper

namespace ShardStore

/-! ### What a run leaves stored -/

/-- What a call leaves stored for a shard, by what was stored before. -/
def storedStep (c : ChunkId) (i : ShardIndex) (data : Option Bytes) : Call → Option Bytes
  | .store d j new _ _ _ => if c = d ∧ i = j then some new else data
  | .delete d j _ => if c = d ∧ i = j then none else data

/-- The data of the last store of a shard, if no delete of it came after. -/
def stored (calls : List Call) (c : ChunkId) (i : ShardIndex) : Option Bytes :=
  calls.foldl (storedStep c i) none

/-- The chunk that a call stores a shard of. -/
def storedChunk : Call → Option ChunkId
  | .store c _ _ _ _ _ => some c
  | .delete _ _ _ => none

theorem stored_concat (calls : List Call) (call : Call) (c : ChunkId) (i : ShardIndex) :
    stored (calls ++ [call]) c i = storedStep c i (stored calls c i) call := by
  rw [stored, List.foldl_append]
  rfl

/-- A shard that is stored is one of a chunk that was stored. -/
theorem mem_storedChunk_of_stored {calls : List Call} {c : ChunkId} {i : ShardIndex}
    (h : (stored calls c i).isSome) : c ∈ calls.filterMap storedChunk := by
  induction calls using List.reverseRecOn with
  | nil => simp [stored] at h
  | append_singleton calls call ih =>
      rw [List.filterMap_append, List.mem_append]
      rw [stored_concat] at h
      cases call with
      | store d j data createdAt lastVerified fault =>
          rw [storedStep] at h
          split_ifs at h with hself
          · exact Or.inr (by simp [storedChunk, hself.1])
          · exact Or.inl (ih h)
      | delete d j fault =>
          rw [storedStep] at h
          split_ifs at h with hself
          · simp at h
          · exact Or.inl (ih h)

/-! ### The disk of a run -/

variable {hex : HexCodec} {json : MetaJson} {blake3 : HashFn} {s : ShardStore} {disk : Disk}

/-- The disk holds what the calls leave stored: every shard with metadata that verifies it,
and a directory for every chunk that a shard was stored of. -/
structure Holds (hex : HexCodec) (json : MetaJson) (blake3 : HashFn) (s : ShardStore)
    (calls : List Call) (disk : Disk) : Prop where
  layout : WellFormed hex s disk
  shards : ∀ c i, s.shardFile hex c i disk = stored calls c i
  verified : ∀ c i data, stored calls c i = some data →
    verifies hex json blake3 (s.metaFile hex c i disk) data = true
  chunks : ∀ c, disk.lookup (s.chunkDirectory hex c) = some .dir ↔
    c ∈ calls.filterMap storedChunk

/-- A store that was created where nothing was holds nothing. -/
theorem holds_new (h : WellFormed hex s disk) (hfresh : Fresh s.basePath disk) :
    Holds hex json blake3 s [] disk := by
  have hnone : ∀ c i, s.shardFile hex c i disk = none := by
    intro c i
    rw [shardFile, FileTree.read, shardPath, chunkDirectory, List.append_assoc,
      hfresh _ (by simp)]
    rfl
  refine ⟨h, hnone, fun c i data hdata => ?_, fun c => ?_⟩
  · simp [stored] at hdata
  · rw [chunkDirectory, hfresh _ (by simp)]
    simp

theorem parseMeta_utf8 (json : MetaJson) (record : ShardMeta) :
    parseMeta json (utf8 (json.toStringPretty record)) = .ok record := by
  simp [parseMeta, json.fromStr_toStringPretty]

/-- The metadata that a store writes verifies the data that it writes. -/
theorem verifies_newMeta (hex : HexCodec) (json : MetaJson) (blake3 : HashFn) (c : ChunkId)
    (i : ShardIndex) (data : Bytes) (createdAt lastVerified : String) :
    verifies hex json blake3 (some (utf8 (json.toStringPretty
      (newMeta hex blake3 c i data createdAt lastVerified)))) data = true := by
  rw [verifies, recordOf, parseMeta_utf8]
  exact decide_eq_true rfl

/-- A store that succeeds is one that no fault befalls. -/
theorem noFault_of_succeeds (h : WellFormed hex s disk) {c : ChunkId} {i : ShardIndex}
    {data : Bytes} {createdAt lastVerified : String} {fault : Option StoreFault}
    (hok : s.Succeeds hex json blake3 disk (.store c i data createdAt lastVerified fault)) :
    fault = none := by
  obtain ⟨disk', heq, -⟩ := storeShard_spec json blake3 h c i data createdAt lastVerified fault
  rw [Succeeds, perform, heq] at hok
  rcases fault with _ | _ | _ | _
  · rfl
  all_goals cases hok

/-- A call that succeeds leaves on the disk what it leaves stored. -/
theorem Holds.step {calls : List Call} {call : Call} (h : Holds hex json blake3 s calls disk)
    (hok : s.Succeeds hex json blake3 disk call) :
    Holds hex json blake3 s (calls ++ [call]) (s.callStep hex json blake3 disk call) := by
  have hlayout : WellFormed hex s (s.callStep hex json blake3 disk call) :=
    wellFormed_callStep h.layout call
  cases call with
  | store c i data createdAt lastVerified fault =>
      obtain rfl := noFault_of_succeeds h.layout hok
      obtain ⟨disk', heq, hstored⟩ :=
        storeShard_spec json blake3 h.layout c i data createdAt lastVerified none
      rw [callStep, perform, heq] at hlayout ⊢
      refine ⟨hlayout, fun d j => ?_, fun d j new hnew => ?_, fun d => ?_⟩
      · rw [hstored.shardFile, stored_concat, storedStep, h.shards]
        split_ifs <;> rfl
      · rw [stored_concat, storedStep] at hnew
        rw [hstored.metaFile]
        split_ifs at hnew ⊢ with hdj
        · obtain ⟨rfl, rfl⟩ := hdj
          obtain rfl := Option.some.inj hnew
          exact verifies_newMeta hex json blake3 d j data createdAt lastVerified
        · exact h.verified d j new hnew
      · rw [hstored.isDir_iff, h.chunks, List.filterMap_append, List.mem_append]
        simp [storedChunk]
  | delete c i fault =>
      obtain ⟨shardGone, metaGone, disk', heq, -, hdeleted⟩ := deleteShard_spec h.layout c i fault
      rw [Succeeds, perform, heq] at hok
      have hgone : (shardGone && metaGone) = true := by
        by_contra hkept
        rw [if_neg hkept] at hok
        cases hok
      rw [Bool.and_eq_true] at hgone
      rw [callStep, perform, heq] at hlayout ⊢
      refine ⟨hlayout, fun d j => ?_, fun d j data hdata => ?_, fun d => ?_⟩
      · rw [hdeleted.shardFile, stored_concat, storedStep, h.shards]
        simp [hgone.1]
      · rw [stored_concat, storedStep] at hdata
        split_ifs at hdata with hdj
        rw [hdeleted.metaFile_of_ne hdj]
        exact h.verified d j data hdata
      · rw [hdeleted.chunkDirectory, h.chunks, List.filterMap_append]
        simp [storedChunk]

/-- **The disk of a run**: after a run whose calls succeed the disk holds what they leave
stored. -/
theorem holds_run {basePath : List String} {fault : Option ℕ} {disk₀ : Disk}
    (hfresh : Fresh basePath disk₀) (hnew : new basePath fault disk₀ = (.ok s, disk))
    {calls : List Call}
    (hok : ∀ v ∈ Runs.visits (s.callStep hex json blake3) disk calls,
      s.Succeeds hex json blake3 v.1 v.2) :
    Holds hex json blake3 s calls (calls.foldl (s.callStep hex json blake3) disk) := by
  obtain ⟨hlayout, hbelow⟩ : WellFormed hex s disk ∧ Fresh s.basePath disk :=
    wellFormed_new hfresh hnew
  exact Runs.history (I := Holds hex json blake3 s) (G := s.Succeeds hex json blake3) _
    (fun _ _ _ hholds hcall => hholds.step hcall) (holds_new hlayout hbelow) hok

/-- **The shard store is a map**: after a run of stores and deletes that all succeed, on a
store created where nothing was, what is retrieved of a shard is the data that the run
leaves stored, or an error where it leaves none; and the shards that exist are the ones that
are left stored. -/
theorem retrieve_stored {basePath : List String} {fault : Option ℕ} {disk₀ : Disk}
    (hfresh : Fresh basePath disk₀) (hnew : new basePath fault disk₀ = (.ok s, disk))
    {calls : List Call}
    (hok : ∀ v ∈ Runs.visits (s.callStep hex json blake3) disk calls,
      s.Succeeds hex json blake3 v.1 v.2) (c : ChunkId) (i : ShardIndex) :
    (s.retrieveShard hex json blake3 c i
        (calls.foldl (s.callStep hex json blake3) disk)).toOption = stored calls c i ∧
      s.shardExists hex c i (calls.foldl (s.callStep hex json blake3) disk) =
        (stored calls c i).isSome := by
  have h := holds_run hfresh hnew hok
  rw [retrieveShard_eq_outcome h.layout, toOption_outcome, shardExists_eq h.layout, h.shards]
  refine ⟨?_, rfl⟩
  cases hdata : stored calls c i with
  | none => rfl
  | some data => rw [Option.filter_some, if_pos (h.verified c i data hdata)]

/-- A store at a path of one name. -/
def oneStore : ShardStore := ⟨["shards"]⟩

/-- The disk of it, where nothing was before. -/
def oneDisk : Disk := (new ["shards"] none ∅).2

/-- A chunk of one byte. -/
def oneChunk : ChunkId := ChunkId.new stepDigest [1]

theorem fresh_empty (basePath : List String) : Fresh basePath ∅ :=
  fun _ _ => AList.lookup_empty _

theorem new_oneStore : new ["shards"] none ∅ = (.ok oneStore, oneDisk) := rfl

theorem wellFormed_oneDisk : WellFormed .lowercase oneStore oneDisk :=
  (wellFormed_new (fresh_empty _) new_oneStore).1

/-- Two shards are stored, the one is stored again and the other deleted. -/
def overwritingCalls : List Call :=
  [.store oneChunk ⟨0⟩ [1] "2024-01-01T00:00:00+00:00" "2024-01-01T00:00:00+00:00" none,
    .store oneChunk ⟨1⟩ [2] "2024-01-01T00:00:01+00:00" "2024-01-01T00:00:01+00:00" none,
    .store oneChunk ⟨0⟩ [3] "2024-01-01T00:00:02+00:00" "2024-01-01T00:00:02+00:00" none,
    .delete oneChunk ⟨1⟩ none]

theorem noFault_overwritingCalls : ∀ call ∈ overwritingCalls, call.NoFault := by
  simp [overwritingCalls, Call.NoFault]

theorem retrieve_stored_overwriting :
    (oneStore.retrieveShard .lowercase .pretty stepDigest oneChunk ⟨0⟩
        (overwritingCalls.foldl (oneStore.callStep .lowercase .pretty stepDigest)
          oneDisk)).toOption = some [3] ∧
      oneStore.shardExists .lowercase oneChunk ⟨0⟩
        (overwritingCalls.foldl (oneStore.callStep .lowercase .pretty stepDigest) oneDisk) =
        true :=
  retrieve_stored (fresh_empty _) new_oneStore
    (succeeds_of_noFault _ _ wellFormed_oneDisk noFault_overwritingCalls) oneChunk ⟨0⟩

/-! ### Listing the chunks of a run -/

/-- The chunks listed after a run are those that a shard was stored of in it. -/
theorem listChunks_run {basePath : List String} {fault : Option ℕ} {disk₀ : Disk}
    (hfresh : Fresh basePath disk₀) (hnew : new basePath fault disk₀ = (.ok s, disk))
    {calls : List Call}
    (hok : ∀ v ∈ Runs.visits (s.callStep hex json blake3) disk calls,
      s.Succeeds hex json blake3 v.1 v.2) :
    ∃ chunks, s.listChunks hex (calls.foldl (s.callStep hex json blake3) disk) = .ok chunks ∧
      chunks.Nodup ∧ ∀ c, c ∈ chunks ↔ c ∈ calls.filterMap storedChunk := by
  have h := holds_run hfresh hnew hok
  obtain ⟨chunks, hlist, hnodup, hmem⟩ := listChunks_spec h.layout
  exact ⟨chunks, hlist, hnodup, fun c => (hmem c).trans (h.chunks c)⟩

/-- **The listing of a run** has each chunk once, and it has exactly the chunks that have a
shard when the run leaves no chunk that it stored without one. -/
theorem listed_chunks_iff {basePath : List String} {fault : Option ℕ} {disk₀ : Disk}
    (hfresh : Fresh basePath disk₀) (hnew : new basePath fault disk₀ = (.ok s, disk))
    {calls : List Call}
    (hok : ∀ v ∈ Runs.visits (s.callStep hex json blake3) disk calls,
      s.Succeeds hex json blake3 v.1 v.2) :
    ∃ chunks, s.listChunks hex (calls.foldl (s.callStep hex json blake3) disk) = .ok chunks ∧
      ((chunks.Nodup ∧ ∀ c, c ∈ chunks ↔
          ∃ i, s.shardExists hex c i (calls.foldl (s.callStep hex json blake3) disk) = true) ↔
        ∀ c ∈ calls.filterMap storedChunk, ∃ i, (stored calls c i).isSome) := by
  have h := holds_run hfresh hnew hok
  obtain ⟨chunks, hlist, hnodup, hmem⟩ := listChunks_run hfresh hnew hok
  refine ⟨chunks, hlist, ?_⟩
  simp only [shardExists_eq h.layout, h.shards, hmem]
  constructor
  · rintro ⟨-, hexact⟩ c hc
    exact (hexact c).mp hc
  · intro hleft
    exact ⟨hnodup, fun c => ⟨hleft c, fun ⟨_, hi⟩ => mem_storedChunk_of_stored hi⟩⟩

theorem listed_chunks_overwriting :
    ∃ chunks, oneStore.listChunks .lowercase
        (overwritingCalls.foldl (oneStore.callStep .lowercase .pretty stepDigest) oneDisk) =
        .ok chunks ∧
      chunks.Nodup ∧ ∀ c, c ∈ chunks ↔ ∃ i, oneStore.shardExists .lowercase c i
        (overwritingCalls.foldl (oneStore.callStep .lowercase .pretty stepDigest) oneDisk) =
        true := by
  obtain ⟨chunks, hlist, hiff⟩ := listed_chunks_iff (fresh_empty _) new_oneStore
    (succeeds_of_noFault .pretty stepDigest wellFormed_oneDisk noFault_overwritingCalls)
  refine ⟨chunks, hlist, hiff.mpr fun c hc => ⟨⟨0⟩, ?_⟩⟩
  obtain rfl : c = oneChunk := by simpa [overwritingCalls, storedChunk] using hc
  rfl

/-- A shard is stored and deleted. -/
def deletingCalls : List Call :=
  [.store oneChunk ⟨0⟩ [1] "2024-01-01T00:00:00+00:00" "2024-01-01T00:00:00+00:00" none,
    .delete oneChunk ⟨0⟩ none]

/-- A chunk is listed after its only shard was deleted. -/
theorem deleted_chunk_listed :
    Fresh ["shards"] ∅ ∧ new ["shards"] none ∅ = (.ok oneStore, oneDisk) ∧
      (∀ v ∈ Runs.visits (oneStore.callStep .lowercase .pretty stepDigest) oneDisk deletingCalls,
        oneStore.Succeeds .lowercase .pretty stepDigest v.1 v.2) ∧
      ∃ chunks, oneStore.listChunks .lowercase
          (deletingCalls.foldl (oneStore.callStep .lowercase .pretty stepDigest) oneDisk) =
          .ok chunks ∧
        oneChunk ∈ chunks ∧ ∀ i, oneStore.shardExists .lowercase oneChunk i
          (deletingCalls.foldl (oneStore.callStep .lowercase .pretty stepDigest) oneDisk) =
          false := by
  have hok := succeeds_of_noFault .pretty stepDigest wellFormed_oneDisk
    (show ∀ call ∈ deletingCalls, call.NoFault by simp [deletingCalls, Call.NoFault])
  have h := holds_run (fresh_empty _) new_oneStore hok
  obtain ⟨chunks, hlist, -, hmem⟩ := listChunks_run (fresh_empty _) new_oneStore hok
  refine ⟨fresh_empty _, new_oneStore, hok, chunks, hlist, (hmem _).mpr ?_, fun i => ?_⟩
  · exact List.mem_cons_self
  · rw [shardExists_eq h.layout, h.shards]
    simp [stored, deletingCalls, storedStep]

end ShardStore

end VaultKeeper
