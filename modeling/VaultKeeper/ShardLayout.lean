import Mathlib.Data.Set.List
import VaultKeeper.Runs
import VaultKeeper.ShardStore

/-!
# The Layout of the Shard Disk

What the operations of the shard store do to the disk below its base path. The base path
has directories of chunks only, and in these no directory stands where a file belongs. On
such a disk an operation fails by its fault only, and what it leaves is read off the step
that fails.

## Main results

* `storeShard_spec`: what a store returns, and what it leaves on the disk.
* `deleteShard_spec`: the same of a delete.
* `retrieveShard_eq_outcome`: what is retrieved is read off the two files of the shard.
* `listChunks_spec`: a listing has the chunks that have a directory.
* `wellFormed_run`: every run keeps the layout, whatever fails in it.
* `succeeds_of_noFault`: a run that no fault befalls succeeds.
-/

namespace VaultKeeper

open FileTree

namespace ShardStore

variable {hex : HexCodec}

/-! ### The layout of the disk -/

/-- Nothing is on the disk below a base path. -/
def Fresh (basePath : List String) (disk : Disk) : Prop :=
  ∀ rest ≠ [], disk.lookup (basePath ++ rest) = none

/-- What is on the disk of a store: the base path is a directory, it has directories of
chunks only, and no directory stands where a file of a shard belongs. -/
structure WellFormed (hex : HexCodec) (s : ShardStore) (disk : Disk) : Prop where
  base : ∀ p ∈ s.basePath.inits, disk.lookup p = some .dir
  chunks : ∀ name node, disk.lookup (s.basePath ++ [name]) = some node →
    node = .dir ∧ ∃ c : ChunkId, name = c.asHex hex
  shards : ∀ c i, disk.lookup (s.shardPath hex c i) ≠ some .dir
  metas : ∀ c i, disk.lookup (s.metaPath hex c i) ≠ some .dir

/-- A store is created when the directories up to its base path are made. -/
theorem createDirs_of_new {basePath : List String} {fault : Option ℕ} {disk disk' : Disk}
    {s : ShardStore} (hnew : new basePath fault disk = (.ok s, disk')) :
    (createDirs disk basePath.inits).1 = .ok () ∧ s = ⟨basePath⟩ ∧
      disk' = (createDirs disk basePath.inits).2 := by
  rw [new] at hnew
  cases fault with
  | none =>
      rw [createDirAll] at hnew
      split at hnew
      · cases hnew
      · next disk₁ h =>
        rw [h]
        cases hnew
        exact ⟨rfl, rfl, rfl⟩
  | some made =>
      rw [createDirAll] at hnew
      cases hnew

/-- A store that was created where nothing was has its layout. -/
theorem wellFormed_new {basePath : List String} {fault : Option ℕ} {disk disk' : Disk}
    {s : ShardStore} (hfresh : Fresh basePath disk)
    (hnew : new basePath fault disk = (.ok s, disk')) :
    WellFormed hex s disk' ∧ Fresh s.basePath disk' := by
  obtain ⟨hdirs, rfl, rfl⟩ := createDirs_of_new hnew
  have hlookup := (createDirs_of_noFile (noFile_of_createDirs hdirs)).2
  have hbelow : Fresh basePath (createDirs disk basePath.inits).2 := by
    intro rest hrest
    have hnotMem : basePath ++ rest ∉ basePath.inits := by
      rw [List.mem_inits]
      intro hprefix
      have hlength := hprefix.length_le
      rw [List.length_append] at hlength
      exact hrest (List.length_eq_zero_iff.mp (by omega))
    rw [hlookup, if_neg hnotMem]
    exact hfresh rest hrest
  refine ⟨⟨fun p hp => by rw [hlookup, if_pos hp], fun name node hnode => ?_, fun c i => ?_,
    fun c i => ?_⟩, hbelow⟩
  · rw [hbelow [name] (by simp)] at hnode
    cases hnode
  · rw [shardPath, chunkDirectory, List.append_assoc, hbelow _ (by simp)]
    simp
  · rw [metaPath, chunkDirectory, List.append_assoc, hbelow _ (by simp)]
    simp

variable {json : MetaJson} {blake3 : HashFn} {s : ShardStore} {disk : Disk}

theorem WellFormed.chunkDirectory_ne_file (h : WellFormed hex s disk) (c : ChunkId)
    (content : Bytes) : disk.lookup (s.chunkDirectory hex c) ≠ some (.file content) := by
  intro hfile
  obtain ⟨hdir, -⟩ := h.chunks _ _ hfile
  cases hdir

/-! ### Storing -/

/-- Whether the directory of a chunk is there when its making ends. -/
def madeDirectory (p : List String) : Option ℕ → Prop
  | none => True
  | some made => p ∈ p.inits.take made

instance (p : List String) : (fault : Option ℕ) → Decidable (madeDirectory p fault)
  | none => .isTrue trivial
  | some made => inferInstanceAs (Decidable (p ∈ p.inits.take made))

/-- What is left of the data in the shard file, when anything is written to it. -/
def shardWritten (data : Bytes) : Option StoreFault → Option Bytes
  | some (.createDir _) => none
  | fault => written data (StoreFault.inWriteShard fault)

/-- What is left of the text in the metadata file, when anything is written to it. -/
def metaWritten (text : Bytes) : Option StoreFault → Option Bytes
  | some (.createDir _) => none
  | some (.writeShard _) => none
  | fault => written text (StoreFault.inWriteMeta fault)

/-- What a store returns, by the step that fails. -/
def storeResult (path : List String) (record : ShardMeta) :
    Option StoreFault → Except ShardError ShardMeta
  | none => .ok record
  | some (.createDir _) => .error (.io none .failed)
  | some (.writeShard _) =>
      .error (.io (some ("Failed to write shard: " ++ display path)) .failed)
  | some (.writeMeta _) => .error (.io none .failed)

/-- The directory of a chunk is made, unless a fault befalls it, and nothing else. -/
theorem exists_createDirAll (h : WellFormed hex s disk) (c : ChunkId) (fault : Option ℕ) :
    ∃ disk', createDirAll disk (s.chunkDirectory hex c) fault =
        (if fault = none then .ok () else .error .failed, disk') ∧
      disk'.lookup (s.chunkDirectory hex c) =
        (if madeDirectory (s.chunkDirectory hex c) fault then some .dir
        else disk.lookup (s.chunkDirectory hex c)) ∧
      ∀ q, q ≠ s.chunkDirectory hex c → disk'.lookup q = disk.lookup q := by
  have hnodes : ∀ p ∈ (s.chunkDirectory hex c).inits,
      p = s.chunkDirectory hex c ∨ disk.lookup p = some .dir := by
    intro p hp
    rw [List.mem_inits, chunkDirectory, List.prefix_concat_iff] at hp
    exact hp.imp_right fun hprefix => h.base p ((List.mem_inits _ _).mpr hprefix)
  have hnoFile : NoFile disk (s.chunkDirectory hex c).inits := by
    intro p hp content hfile
    rcases hnodes p hp with rfl | hdir
    · exact h.chunkDirectory_ne_file c content hfile
    · rw [hdir] at hfile
      cases hfile
  have hlookup : ∀ ps : List (List String), (∀ p ∈ ps, p ∈ (s.chunkDirectory hex c).inits) →
      ∀ q, (createDirs disk ps).2.lookup q =
        if q = s.chunkDirectory hex c ∧ s.chunkDirectory hex c ∈ ps then some .dir
        else disk.lookup q := by
    intro ps hps q
    rw [(createDirs_of_noFile fun p hp => hnoFile p (hps p hp)).2 q]
    by_cases hq : q = s.chunkDirectory hex c
    · simp [hq]
    · by_cases hmem : q ∈ ps
      · simp [hq, hmem, (hnodes q (hps q hmem)).resolve_left hq]
      · simp [hq, hmem]
  have hothers : ∀ ps : List (List String), (∀ p ∈ ps, p ∈ (s.chunkDirectory hex c).inits) →
      ∀ q, q ≠ s.chunkDirectory hex c → (createDirs disk ps).2.lookup q = disk.lookup q :=
    fun ps hps q hq => by rw [hlookup ps hps, if_neg fun hand => hq hand.1]
  cases fault with
  | none =>
      have hself : s.chunkDirectory hex c ∈ (s.chunkDirectory hex c).inits :=
        (List.mem_inits _ _).mpr List.prefix_rfl
      refine ⟨(createDirs disk _).2, Prod.ext (createDirs_of_noFile hnoFile).1 rfl, ?_,
        hothers _ fun p hp => hp⟩
      rw [hlookup _ fun p hp => hp]
      exact if_congr (by simp [madeDirectory, hself]) rfl rfl
  | some made =>
      refine ⟨_, rfl, ?_, hothers _ fun p hp => List.mem_of_mem_take hp⟩
      rw [hlookup _ fun p hp => List.mem_of_mem_take hp]
      exact if_congr (by simp [madeDirectory]) rfl rfl

/-- When the directory is made, the shard file has what its write leaves. -/
theorem shardWritten_eq {fault : Option StoreFault} (h : StoreFault.inCreateDir fault = none)
    (data : Bytes) : shardWritten data fault = written data (StoreFault.inWriteShard fault) := by
  rcases fault with _ | _ | _ | _
  · rfl
  · cases h
  · rfl
  · rfl

/-- When the shard file is written too, the metadata file has what its write leaves. -/
theorem metaWritten_eq {fault : Option StoreFault} (h : StoreFault.inCreateDir fault = none)
    (h' : StoreFault.inWriteShard fault = none) (text : Bytes) :
    metaWritten text fault = written text (StoreFault.inWriteMeta fault) := by
  rcases fault with _ | _ | _ | _
  · rfl
  · cases h
  · cases h'
  · rfl

/-- And a store then fails by a fault of the metadata file only. -/
theorem storeResult_eq {fault : Option StoreFault} (h : StoreFault.inCreateDir fault = none)
    (h' : StoreFault.inWriteShard fault = none) (path : List String) (record : ShardMeta) :
    storeResult path record fault =
      if StoreFault.inWriteMeta fault = none then .ok record else .error (.io none .failed) := by
  rcases fault with _ | _ | _ | _
  · rfl
  · cases h
  · cases h'
  · rfl

/-- What is on the disk after a store: the directory, and of the two files what was written
before the step that fails. -/
structure StoredOver (hex : HexCodec) (s : ShardStore) (c : ChunkId) (i : ShardIndex)
    (data text : Bytes) (fault : Option StoreFault) (disk disk' : Disk) : Prop where
  directory : disk'.lookup (s.chunkDirectory hex c) =
    if madeDirectory (s.chunkDirectory hex c) (StoreFault.inCreateDir fault) then some .dir
    else disk.lookup (s.chunkDirectory hex c)
  shard : disk'.lookup (s.shardPath hex c i) =
    ((shardWritten data fault).map Node.file).or (disk.lookup (s.shardPath hex c i))
  metadata : disk'.lookup (s.metaPath hex c i) =
    ((metaWritten text fault).map Node.file).or (disk.lookup (s.metaPath hex c i))
  others : ∀ q, q ≠ s.chunkDirectory hex c → q ≠ s.shardPath hex c i → q ≠ s.metaPath hex c i →
    disk'.lookup q = disk.lookup q

/-- **Storing**: what a store returns, and what it leaves on the disk. -/
theorem storeShard_spec (json : MetaJson) (blake3 : HashFn) (h : WellFormed hex s disk)
    (c : ChunkId) (i : ShardIndex) (data : Bytes) (createdAt lastVerified : String)
    (fault : Option StoreFault) :
    ∃ disk', s.storeShard hex json blake3 c i data createdAt lastVerified fault disk =
        (storeResult (s.shardPath hex c i)
          (newMeta hex blake3 c i data createdAt lastVerified) fault, disk') ∧
      StoredOver hex s c i data (utf8 (json.toStringPretty
        (newMeta hex blake3 c i data createdAt lastVerified))) fault disk disk' := by
  have hshardDir := shardPath_ne_chunkDirectory hex s c c i
  have hmetaDir := metaPath_ne_chunkDirectory hex s c c i
  have hshardMeta := shardPath_ne_metaPath hex s c c i i
  obtain ⟨disk₁, hcreate, hmade₁, hother₁⟩ := exists_createDirAll h c (StoreFault.inCreateDir fault)
  rw [storeShard, hcreate]
  by_cases hnone : StoreFault.inCreateDir fault = none
  swap
  · -- the directory is not made
    obtain ⟨made, rfl⟩ : ∃ made, fault = some (.createDir made) := by
      rcases fault with _ | _ | _ | _ <;> simp_all [StoreFault.inCreateDir]
    rw [if_neg hnone]
    exact ⟨disk₁, rfl, hmade₁, hother₁ _ hshardDir, hother₁ _ hmetaDir,
      fun q hq _ _ => hother₁ q hq⟩
  have hdir₁ : disk₁.lookup (s.chunkDirectory hex c) = some .dir := by
    rw [hmade₁, hnone]
    exact if_pos trivial
  obtain ⟨disk₂, hwrite₂, hshard₂, hother₂⟩ := exists_write (t := disk₁) (p := s.shardPath hex c i)
    (by rw [dropLast_shardPath, hdir₁]) (by rw [hother₁ _ hshardDir]; exact h.shards c i) data
    (StoreFault.inWriteShard fault)
  rw [hother₁ _ hshardDir, ← shardWritten_eq hnone] at hshard₂
  have hdirectory₂ := (hother₂ _ hshardDir.symm).trans hmade₁
  have hmeta₂ := (hother₂ _ hshardMeta.symm).trans (hother₁ _ hmetaDir)
  rw [if_pos hnone]
  dsimp only
  rw [hwrite₂]
  by_cases hshard : StoreFault.inWriteShard fault = none
  swap
  · -- the shard file is not written, or not to its end
    obtain ⟨f, rfl⟩ : ∃ f, fault = some (.writeShard f) := by
      rcases fault with _ | _ | _ | _ <;> simp_all [StoreFault.inWriteShard]
    rw [if_neg hshard]
    exact ⟨disk₂, rfl, hdirectory₂, hshard₂, hmeta₂,
      fun q hq hqs _ => (hother₂ q hqs).trans (hother₁ q hq)⟩
  -- the metadata file is written, to its end or not
  obtain ⟨disk₃, hwrite₃, hmeta₃, hother₃⟩ := exists_write (t := disk₂) (p := s.metaPath hex c i)
    (by rw [dropLast_metaPath, hother₂ _ hshardDir.symm, hdir₁])
    (by rw [hmeta₂]; exact h.metas c i)
    (utf8 (json.toStringPretty (newMeta hex blake3 c i data createdAt lastVerified)))
    (StoreFault.inWriteMeta fault)
  rw [hmeta₂, ← metaWritten_eq hnone hshard] at hmeta₃
  rw [if_pos hshard]
  dsimp only
  rw [saveMeta, hwrite₃, storeResult_eq hnone hshard]
  exact ⟨disk₃, by split_ifs <;> rfl, (hother₃ _ hmetaDir.symm).trans hdirectory₂,
    (hother₃ _ hshardMeta).trans hshard₂, hmeta₃, fun q hq hqs hqm =>
      (hother₃ q hqm).trans ((hother₂ q hqs).trans (hother₁ q hq))⟩

/-! ### Deleting -/

/-- What is on the disk after a delete: both files, or those it did not come to remove. -/
structure DeletedFrom (hex : HexCodec) (s : ShardStore) (c : ChunkId) (i : ShardIndex)
    (shardGone metaGone : Bool) (disk disk' : Disk) : Prop where
  shard : disk'.lookup (s.shardPath hex c i) =
    if shardGone then none else disk.lookup (s.shardPath hex c i)
  metadata : disk'.lookup (s.metaPath hex c i) =
    if metaGone then none else disk.lookup (s.metaPath hex c i)
  others : ∀ q, q ≠ s.shardPath hex c i → q ≠ s.metaPath hex c i → disk'.lookup q = disk.lookup q

/-- Where no directory is, a file is gone unless its removal fails. -/
theorem exists_removeExisting {p : List String} (hp : disk.lookup p ≠ some .dir) (fault : Bool) :
    ∃ (gone : Bool) (disk' : Disk), removeExisting disk p fault =
        (if gone then .ok () else .error .failed, disk') ∧
      (fault = false → gone = true) ∧
      ∀ q, disk'.lookup q = if q = p ∧ gone = true then none else disk.lookup q := by
  rw [removeExisting, pathExists]
  cases hlookup : disk.lookup p with
  | none =>
      refine ⟨true, disk, rfl, fun _ => rfl, fun q => ?_⟩
      split_ifs with hq
      · rw [hq.1, hlookup]
      · rfl
  | some node =>
      cases node with
      | dir => exact absurd hlookup hp
      | file content =>
          rw [Option.isSome_some, if_pos rfl, removeFile, hlookup]
          cases fault with
          | true => exact ⟨false, disk, rfl, by simp, by simp⟩
          | false =>
              refine ⟨true, disk.erase p, rfl, fun _ => rfl, fun q => ?_⟩
              rw [lookup_erase_ite]
              simp

/-- **Deleting**: a delete fails by its fault only, and otherwise both files are gone. -/
theorem deleteShard_spec (h : WellFormed hex s disk) (c : ChunkId) (i : ShardIndex)
    (fault : Option DeleteFault) :
    ∃ (shardGone metaGone : Bool) (disk' : Disk),
      s.deleteShard hex c i fault disk =
        (if shardGone && metaGone then .ok () else .error (.io none .failed), disk') ∧
      (fault = none → (shardGone && metaGone) = true) ∧
      DeletedFrom hex s c i shardGone metaGone disk disk' := by
  have hne := shardPath_ne_metaPath hex s c c i i
  obtain ⟨shardGone, disk₁, hremove₁, hgone₁, hlookup₁⟩ :=
    exists_removeExisting (h.shards c i) (fault = some .removeShard)
  rw [deleteShard, hremove₁]
  cases shardGone with
  | false =>
      refine ⟨false, false, disk₁, rfl, fun hfault => ?_, ?_, ?_, fun q _ _ => ?_⟩
      · simp [hfault] at hgone₁
      · simp [hlookup₁]
      · simp [hlookup₁]
      · simp [hlookup₁]
  | true =>
      have hmeta₁ : disk₁.lookup (s.metaPath hex c i) = disk.lookup (s.metaPath hex c i) := by
        rw [hlookup₁, if_neg fun hand => hne hand.1.symm]
      obtain ⟨metaGone, disk₂, hremove₂, hgone₂, hlookup₂⟩ :=
        exists_removeExisting (hmeta₁ ▸ h.metas c i) (fault = some .removeMeta)
      rw [if_pos rfl]
      dsimp only
      rw [hremove₂]
      refine ⟨true, metaGone, disk₂, ?_, fun hfault => ?_, ?_, ?_, fun q hqs hqm => ?_⟩
      · cases metaGone <;> rfl
      · simpa [hfault] using hgone₂
      · rw [hlookup₂, if_neg fun hand => hne hand.1, hlookup₁]
        simp
      · rw [hlookup₂, hmeta₁]
        simp
      · rw [hlookup₂, if_neg fun hand => hqm hand.1, hlookup₁, if_neg fun hand => hqs hand.1]

/-! ### The layout is kept -/

/-- A change of the disk that makes directories of chunks only, and no directory where a file
belongs, keeps the layout. -/
theorem WellFormed.of_changes {disk' : Disk} (h : WellFormed hex s disk)
    (hchange : ∀ q, disk'.lookup q = disk.lookup q ∨
      (∃ c, q = s.chunkDirectory hex c ∧ disk'.lookup q = some .dir) ∨
      (∃ c i, q = s.shardPath hex c i ∨ q = s.metaPath hex c i) ∧ disk'.lookup q ≠ some .dir) :
    WellFormed hex s disk' := by
  refine ⟨fun p hp => ?_, fun name node hnode => ?_, fun c i => ?_, fun c i => ?_⟩
  · have hlength := ((List.mem_inits _ _).mp hp).length_le
    rcases hchange p with hsame | ⟨c, -, hdir⟩ | ⟨⟨c, i, rfl | rfl⟩, -⟩
    · rw [hsame, h.base p hp]
    · exact hdir
    · simp [shardPath, chunkDirectory] at hlength
    · simp [metaPath, chunkDirectory] at hlength
  · rcases hchange (s.basePath ++ [name]) with hsame | ⟨c, hpath, hdir⟩ | ⟨⟨c, i, hpath⟩, -⟩
    · exact h.chunks name node (hsame ▸ hnode)
    · rw [hdir, Option.some.injEq] at hnode
      exact ⟨hnode.symm, c, by simpa [chunkDirectory] using hpath⟩
    · simp [shardPath, metaPath, chunkDirectory] at hpath
  · rcases hchange (s.shardPath hex c i) with hsame | ⟨d, hpath, -⟩ | ⟨-, hfile⟩
    · rw [hsame]
      exact h.shards c i
    · exact absurd hpath (shardPath_ne_chunkDirectory hex s c d i)
    · exact hfile
  · rcases hchange (s.metaPath hex c i) with hsame | ⟨d, hpath, -⟩ | ⟨-, hfile⟩
    · rw [hsame]
      exact h.metas c i
    · exact absurd hpath (metaPath_ne_chunkDirectory hex s c d i)
    · exact hfile

theorem file_or_ne_dir {new : Option Bytes} {old : Option (Node UInt8)} (h : old ≠ some .dir) :
    (new.map Node.file).or old ≠ some .dir := by
  cases new with
  | none => exact h
  | some bytes => simp

theorem StoredOver.wellFormed {c : ChunkId} {i : ShardIndex} {data text : Bytes}
    {fault : Option StoreFault} {disk' : Disk}
    (hstored : StoredOver hex s c i data text fault disk disk') (h : WellFormed hex s disk) :
    WellFormed hex s disk' := by
  refine h.of_changes fun q => ?_
  by_cases hq : q = s.chunkDirectory hex c
  · have hdirectory := hstored.directory
    rw [← hq] at hdirectory
    split_ifs at hdirectory
    · exact Or.inr (Or.inl ⟨c, hq, hdirectory⟩)
    · exact Or.inl hdirectory
  by_cases hqs : q = s.shardPath hex c i
  · refine Or.inr (Or.inr ⟨⟨c, i, Or.inl hqs⟩, ?_⟩)
    rw [hqs, hstored.shard]
    exact file_or_ne_dir (h.shards c i)
  by_cases hqm : q = s.metaPath hex c i
  · refine Or.inr (Or.inr ⟨⟨c, i, Or.inr hqm⟩, ?_⟩)
    rw [hqm, hstored.metadata]
    exact file_or_ne_dir (h.metas c i)
  · exact Or.inl (hstored.others q hq hqs hqm)

theorem DeletedFrom.wellFormed {c : ChunkId} {i : ShardIndex} {shardGone metaGone : Bool}
    {disk' : Disk} (hdeleted : DeletedFrom hex s c i shardGone metaGone disk disk')
    (h : WellFormed hex s disk) : WellFormed hex s disk' := by
  refine h.of_changes fun q => ?_
  by_cases hqs : q = s.shardPath hex c i
  · refine Or.inr (Or.inr ⟨⟨c, i, Or.inl hqs⟩, ?_⟩)
    rw [hqs, hdeleted.shard]
    split_ifs
    · simp
    · exact h.shards c i
  by_cases hqm : q = s.metaPath hex c i
  · refine Or.inr (Or.inr ⟨⟨c, i, Or.inr hqm⟩, ?_⟩)
    rw [hqm, hdeleted.metadata]
    split_ifs
    · simp
    · exact h.metas c i
  · exact Or.inl (hdeleted.others q hqs hqm)

/-! ### Retrieving -/

/-- The bytes in the data file of a shard. -/
def shardFile (hex : HexCodec) (s : ShardStore) (c : ChunkId) (i : ShardIndex) (disk : Disk) :
    Option Bytes :=
  (FileTree.read disk (s.shardPath hex c i)).toOption

/-- The bytes in the metadata file of a shard. -/
def metaFile (hex : HexCodec) (s : ShardStore) (c : ChunkId) (i : ShardIndex) (disk : Disk) :
    Option Bytes :=
  (FileTree.read disk (s.metaPath hex c i)).toOption

/-- The metadata that a metadata file has. -/
def recordOf (json : MetaJson) : Option Bytes → Except ShardError ShardMeta
  | none => .error (.io none .notFound)
  | some bytes => parseMeta json bytes

/-- Whether a metadata file has the hash of the data. -/
def verifies (hex : HexCodec) (json : MetaJson) (blake3 : HashFn) (metadata : Option Bytes)
    (data : Bytes) : Bool :=
  match recordOf json metadata with
  | .error _ => false
  | .ok record => decide (hex.encode (blake3 data).bytes = record.blake3Hash)

/-- What is retrieved, by what the two files of a shard have. -/
def outcome (hex : HexCodec) (json : MetaJson) (blake3 : HashFn) (s : ShardStore) (c : ChunkId)
    (i : ShardIndex) (shard metadata : Option Bytes) : Except ShardError Bytes :=
  match shard with
  | none => .error (.io (some ("Shard not found: " ++ display (s.shardPath hex c i))) .notFound)
  | some data =>
      match recordOf json metadata with
      | .error e => .error e
      | .ok record =>
          if hex.encode (blake3 data).bytes ≠ record.blake3Hash then
            .error (.bail ("Shard integrity check failed for " ++ c.asHex hex ++ ":" ++
              toString i.val))
          else .ok data

/-- Where no directory is, a file is read, or there is none. -/
theorem read_of_ne_dir {p : List String} (hp : disk.lookup p ≠ some .dir) :
    FileTree.read disk p =
      match (FileTree.read disk p).toOption with
      | none => .error .notFound
      | some content => .ok content := by
  rw [FileTree.read]
  cases hlookup : disk.lookup p with
  | none => rfl
  | some node =>
      cases node with
      | dir => exact absurd hlookup hp
      | file content => rfl

/-- **Retrieving** depends on the two files of the shard only. -/
theorem retrieveShard_eq_outcome (h : WellFormed hex s disk) (c : ChunkId) (i : ShardIndex) :
    s.retrieveShard hex json blake3 c i disk =
      outcome hex json blake3 s c i (s.shardFile hex c i disk) (s.metaFile hex c i disk) := by
  rw [retrieveShard, loadMeta, read_of_ne_dir (h.shards c i), read_of_ne_dir (h.metas c i)]
  rw [← shardFile, ← metaFile, outcome.eq_def]
  cases s.shardFile hex c i disk with
  | none => rfl
  | some data =>
      cases s.metaFile hex c i disk with
      | none => rfl
      | some bytes => rfl

/-- A shard is retrieved when its metadata verifies its data. -/
theorem toOption_outcome (c : ChunkId) (i : ShardIndex) (shard metadata : Option Bytes) :
    (outcome hex json blake3 s c i shard metadata).toOption =
      shard.filter (verifies hex json blake3 metadata) := by
  cases shard with
  | none => rfl
  | some data =>
      rw [outcome, Option.filter_some]
      cases hrecord : recordOf json metadata with
      | error e => simp [verifies, hrecord, Except.toOption]
      | ok record =>
          simp only [verifies, hrecord, ite_not, decide_eq_true_eq]
          split_ifs <;> rfl

/-- A shard exists when it has a data file. -/
theorem shardExists_eq (h : WellFormed hex s disk) (c : ChunkId) (i : ShardIndex) :
    s.shardExists hex c i disk = (s.shardFile hex c i disk).isSome := by
  rw [shardExists, pathExists, shardFile, FileTree.read]
  cases hlookup : disk.lookup (s.shardPath hex c i) with
  | none => rfl
  | some node =>
      cases node with
      | dir => exact absurd hlookup (h.shards c i)
      | file content => rfl

/-! ### The files after an operation -/

section Files

variable {c : ChunkId} {i : ShardIndex} {disk' : Disk}

theorem StoredOver.shardFile {data text : Bytes} {fault : Option StoreFault}
    (h : StoredOver hex s c i data text fault disk disk') (d : ChunkId) (j : ShardIndex) :
    s.shardFile hex d j disk' =
      if d = c ∧ j = i then (shardWritten data fault).or (s.shardFile hex d j disk)
      else s.shardFile hex d j disk := by
  rw [ShardStore.shardFile, ShardStore.shardFile]
  split_ifs with hdj
  · obtain ⟨rfl, rfl⟩ := hdj
    exact toOption_read_or h.shard
  · rw [read_congr (h.others _ (shardPath_ne_chunkDirectory hex s d c j) (mt shardPath_inj.mp hdj)
      (shardPath_ne_metaPath hex s d c j i))]

theorem StoredOver.metaFile {data text : Bytes} {fault : Option StoreFault}
    (h : StoredOver hex s c i data text fault disk disk') (d : ChunkId) (j : ShardIndex) :
    s.metaFile hex d j disk' =
      if d = c ∧ j = i then (metaWritten text fault).or (s.metaFile hex d j disk)
      else s.metaFile hex d j disk := by
  rw [ShardStore.metaFile, ShardStore.metaFile]
  split_ifs with hdj
  · obtain ⟨rfl, rfl⟩ := hdj
    exact toOption_read_or h.metadata
  · rw [read_congr (h.others _ (metaPath_ne_chunkDirectory hex s d c j)
      (shardPath_ne_metaPath hex s c d i j).symm (mt metaPath_inj.mp hdj))]

theorem DeletedFrom.shardFile {shardGone metaGone : Bool}
    (h : DeletedFrom hex s c i shardGone metaGone disk disk') (d : ChunkId) (j : ShardIndex) :
    s.shardFile hex d j disk' =
      if (d = c ∧ j = i) ∧ shardGone = true then none else s.shardFile hex d j disk := by
  rw [ShardStore.shardFile, ShardStore.shardFile]
  by_cases hdj : d = c ∧ j = i
  · have hshard := h.shard
    obtain ⟨rfl, rfl⟩ := hdj
    cases shardGone with
    | false =>
        rw [if_neg (by simp), read_congr hshard]
    | true =>
        rw [if_pos ⟨⟨rfl, rfl⟩, rfl⟩, FileTree.read, hshard]
        rfl
  · rw [if_neg fun hand => hdj hand.1, read_congr (h.others _ (mt shardPath_inj.mp hdj)
      (shardPath_ne_metaPath hex s d c j i))]

/-- A delete changes no metadata file of another shard. -/
theorem DeletedFrom.metaFile_of_ne {shardGone metaGone : Bool}
    (h : DeletedFrom hex s c i shardGone metaGone disk disk') {d : ChunkId} {j : ShardIndex}
    (hdj : ¬ (d = c ∧ j = i)) : s.metaFile hex d j disk' = s.metaFile hex d j disk := by
  rw [ShardStore.metaFile, ShardStore.metaFile, read_congr (h.others _
    (shardPath_ne_metaPath hex s c d i j).symm (mt metaPath_inj.mp hdj))]

/-- A store that no fault befalls leaves the directory of its chunk. -/
theorem StoredOver.isDir_iff {data text : Bytes}
    (h : StoredOver hex s c i data text none disk disk') (d : ChunkId) :
    disk'.lookup (s.chunkDirectory hex d) = some .dir ↔
      disk.lookup (s.chunkDirectory hex d) = some .dir ∨ d = c := by
  by_cases hd : d = c
  · subst hd
    rw [h.directory, if_pos (by trivial)]
    simp
  · rw [h.others _ (mt chunkDirectory_inj.mp hd) (shardPath_ne_chunkDirectory hex s c d i).symm
      (metaPath_ne_chunkDirectory hex s c d i).symm]
    simp [hd]

/-- A delete leaves every directory. -/
theorem DeletedFrom.chunkDirectory {shardGone metaGone : Bool}
    (h : DeletedFrom hex s c i shardGone metaGone disk disk') (d : ChunkId) :
    disk'.lookup (s.chunkDirectory hex d) = disk.lookup (s.chunkDirectory hex d) :=
  h.others _ (shardPath_ne_chunkDirectory hex s c d i).symm
    (metaPath_ne_chunkDirectory hex s c d i).symm

end Files

/-! ### Listing -/

/-- **Listing**: the chunks that have a directory are listed, each once. -/
theorem listChunks_spec (h : WellFormed hex s disk) :
    ∃ chunks, s.listChunks hex disk = .ok chunks ∧ chunks.Nodup ∧
      ∀ c, c ∈ chunks ↔ disk.lookup (s.chunkDirectory hex c) = some .dir := by
  have hbase : disk.lookup s.basePath = some .dir :=
    h.base _ ((List.mem_inits _ _).mpr List.prefix_rfl)
  obtain ⟨listing, hlisting⟩ : ∃ listing, readDir disk s.basePath = .ok listing :=
    ⟨_, by rw [readDir, hbase]⟩
  -- every name in the base path is that of a chunk
  have hnames : listing ∈ Set.range (List.map fun c : ChunkId => (c.asHex hex, true)) := by
    rw [Set.range_list_map]
    rintro ⟨name, isDir⟩ hmem
    obtain ⟨node, hnode, rfl⟩ := (mem_readDir_iff hlisting).mp hmem
    obtain ⟨rfl, c, rfl⟩ := h.chunks name node hnode
    exact ⟨c, rfl⟩
  obtain ⟨chunks, rfl⟩ := hnames
  refine ⟨chunks, ?_, ?_, fun c => ?_⟩
  · rw [listChunks, pathExists, hbase, hlisting]
    simp [List.filterMap_map, Except.toOption]
  · have hnodup := readDir_nodup hlisting
    rw [List.map_map] at hnodup
    exact hnodup.of_map
  · constructor
    · intro hmem
      obtain ⟨node, hnode, hdir⟩ :=
        (mem_readDir_iff hlisting).mp (List.mem_map.mpr ⟨c, hmem, rfl⟩)
      rw [chunkDirectory, hnode, (h.chunks _ node hnode).1]
    · intro hdir
      obtain ⟨d, hmem, heq⟩ :=
        List.mem_map.mp ((mem_readDir_iff hlisting).mpr ⟨.dir, hdir, rfl⟩)
      rwa [← ChunkId.asHex_injective hex (congrArg Prod.fst heq)]

/-! ### Runs -/

/-- A call of an operation that changes the disk, with what befalls it. -/
inductive Call
  | store (c : ChunkId) (i : ShardIndex) (data : Bytes) (createdAt lastVerified : String)
      (fault : Option StoreFault)
  | delete (c : ChunkId) (i : ShardIndex) (fault : Option DeleteFault)
deriving DecidableEq

/-- Make a call. -/
def perform (hex : HexCodec) (json : MetaJson) (blake3 : HashFn) (s : ShardStore) (disk : Disk) :
    Call → Except ShardError Unit × Disk
  | .store c i data createdAt lastVerified fault =>
      let result := s.storeShard hex json blake3 c i data createdAt lastVerified fault disk
      (result.1.map fun _ => (), result.2)
  | .delete c i fault => s.deleteShard hex c i fault disk

/-- The disk after a call. -/
def callStep (hex : HexCodec) (json : MetaJson) (blake3 : HashFn) (s : ShardStore) (disk : Disk)
    (call : Call) : Disk :=
  (s.perform hex json blake3 disk call).2

/-- Whether a call on a disk succeeds. -/
def Succeeds (hex : HexCodec) (json : MetaJson) (blake3 : HashFn) (s : ShardStore) (disk : Disk)
    (call : Call) : Prop :=
  (s.perform hex json blake3 disk call).1 = .ok ()

/-- A call keeps the layout, whether it succeeds or fails. -/
theorem wellFormed_callStep (h : WellFormed hex s disk) (call : Call) :
    WellFormed hex s (s.callStep hex json blake3 disk call) := by
  cases call with
  | store c i data createdAt lastVerified fault =>
      obtain ⟨disk', heq, hstored⟩ :=
        storeShard_spec json blake3 h c i data createdAt lastVerified fault
      rw [callStep, perform, heq]
      exact hstored.wellFormed h
  | delete c i fault =>
      obtain ⟨_, _, disk', heq, -, hdeleted⟩ := deleteShard_spec h c i fault
      rw [callStep, perform, heq]
      exact hdeleted.wellFormed h

/-- **The layout is kept** by every run, whatever fails in it. -/
theorem wellFormed_run (h : WellFormed hex s disk) (calls : List Call) :
    WellFormed hex s (calls.foldl (s.callStep hex json blake3) disk) :=
  Runs.invariant_foldl (I := WellFormed hex s) (G := fun _ _ => True) _
    (fun _ call hdisk _ => wellFormed_callStep hdisk call) h fun _ _ => trivial

/-- The calls that no fault befalls. -/
def Call.NoFault : Call → Prop
  | .store _ _ _ _ _ fault => fault = none
  | .delete _ _ fault => fault = none

/-- **Without faults all calls of a run succeed.** -/
theorem succeeds_of_noFault (json : MetaJson) (blake3 : HashFn) (h : WellFormed hex s disk)
    {calls : List Call} (hcalls : ∀ call ∈ calls, call.NoFault) :
    ∀ v ∈ Runs.visits (s.callStep hex json blake3) disk calls,
      s.Succeeds hex json blake3 v.1 v.2 := by
  intro v hv
  have hlayout := (Runs.invariant (I := WellFormed hex s) (G := fun _ _ => True) _
    (fun _ call hdisk _ => wellFormed_callStep hdisk call) h (fun _ _ => trivial) v hv).1
  have hfault := hcalls v.2 (Runs.mem_of_mem_visits _ hv)
  obtain ⟨disk₁, call⟩ := v
  cases call with
  | store c i data createdAt lastVerified fault =>
      obtain rfl : fault = none := hfault
      obtain ⟨disk', heq, -⟩ := storeShard_spec json blake3 hlayout c i data createdAt lastVerified
        none
      rw [Succeeds, perform, heq]
      rfl
  | delete c i fault =>
      obtain rfl : fault = none := hfault
      obtain ⟨shardGone, metaGone, disk', heq, hgone, -⟩ := deleteShard_spec hlayout c i none
      rw [Succeeds, perform, heq, hgone rfl]
      rfl

end ShardStore

end VaultKeeper
