import Mathlib.Data.Finset.Card
import Mathlib.Data.Fintype.Basic
import VaultKeeper.Erasure
import VaultKeeper.ShardMap

/-!
# Recovery from Damaged Nodes

`core/src/erasure.rs` over `storage/src/shard_store.rs`: the five shards of some data are
stored on five nodes, one on each. Later the disks are found changed: files are gone, cut or
overwritten, by whatever cause. What the stores still return is gathered and given to the
decoder.

A store returns only data that its metadata verifies. So as long as at most one of the two
files of a shard was replaced by another, it returns the shard that was stored or an error,
and three intact shards give back the data.

## Main results

* `toOption_retrieveShard`: what is retrieved on any disk.
* `StoresShard.retrieved_eq`: what a damaged store returns is what was stored.
* `recover_from_nodes`: what is gathered from five nodes gives back the data.
-/

namespace VaultKeeper

namespace ShardStore

variable {hex : HexCodec} {json : MetaJson} {blake3 : HashFn} {s : ShardStore}
  {c : ChunkId} {i : ShardIndex} {disk disk' : Disk}

/-! ### One node -/

/-- **Retrieving on any disk**: the data file, when the metadata file verifies it. -/
theorem toOption_retrieveShard (hex : HexCodec) (json : MetaJson) (blake3 : HashFn)
    (s : ShardStore) (c : ChunkId) (i : ShardIndex) (disk : Disk) :
    (s.retrieveShard hex json blake3 c i disk).toOption =
      (s.shardFile hex c i disk).filter
        (verifies hex json blake3 (s.metaFile hex c i disk)) := by
  rw [← @toOption_outcome hex json blake3 s, retrieveShard, loadMeta, shardFile, metaFile]
  cases FileTree.read disk (s.shardPath hex c i) with
  | error e => rfl
  | ok data =>
      cases FileTree.read disk (s.metaPath hex c i) with
      | error e => rfl
      | ok bytes => rfl

/-- One metadata file verifies data of one digest only. -/
theorem digest_eq_of_verifies {metadata : Option Bytes} {data data' : Bytes}
    (h : verifies hex json blake3 metadata data = true)
    (h' : verifies hex json blake3 metadata data' = true) : blake3 data = blake3 data' := by
  rw [verifies] at h h'
  split at h
  · cases h
  · next record hrecord =>
    simp only [hrecord, decide_eq_true_eq] at h h'
    exact Hash.ext (hex.encode_injective (h.trans h'.symm))

/-- A shard is on the disk of a store: the store was created where nothing was, and its calls
since, which all succeeded, leave it stored. -/
def StoresShard (hex : HexCodec) (json : MetaJson) (blake3 : HashFn) (c : ChunkId)
    (i : ShardIndex) (data : Bytes) (s : ShardStore) (disk : Disk) : Prop :=
  ∃ (basePath : List String) (disk₀ disk₁ : Disk) (calls : List Call),
    Fresh basePath disk₀ ∧ new basePath none disk₀ = (.ok s, disk₁) ∧
      (∀ v ∈ Runs.visits (s.callStep hex json blake3) disk₁ calls,
        s.Succeeds hex json blake3 v.1 v.2) ∧
      stored calls c i = some data ∧ disk = calls.foldl (s.callStep hex json blake3) disk₁

/-- Both files of a shard are as they were. -/
def Intact (hex : HexCodec) (s : ShardStore) (c : ChunkId) (i : ShardIndex)
    (disk disk' : Disk) : Prop :=
  s.shardFile hex c i disk' = s.shardFile hex c i disk ∧
    s.metaFile hex c i disk' = s.metaFile hex c i disk

/-- One of the two files of a shard is as it was, or gone; the other may be anything. -/
def AtMostOneReplaced (hex : HexCodec) (s : ShardStore) (c : ChunkId) (i : ShardIndex)
    (disk disk' : Disk) : Prop :=
  (s.shardFile hex c i disk' = none ∨
      s.shardFile hex c i disk' = s.shardFile hex c i disk) ∨
    s.metaFile hex c i disk' = none ∨ s.metaFile hex c i disk' = s.metaFile hex c i disk

/-- The two files of a shard that is stored. -/
theorem StoresShard.files {data : Bytes} (h : StoresShard hex json blake3 c i data s disk) :
    s.shardFile hex c i disk = some data ∧
      verifies hex json blake3 (s.metaFile hex c i disk) data = true := by
  obtain ⟨basePath, disk₀, disk₁, calls, hfresh, hnew, hok, hdata, rfl⟩ := h
  have hholds := holds_run hfresh hnew hok
  exact ⟨(hholds.shards c i).trans hdata, hholds.verified c i data hdata⟩

/-- An intact shard is retrieved. -/
theorem StoresShard.retrieved_of_intact {data : Bytes}
    (h : StoresShard hex json blake3 c i data s disk) (hintact : s.Intact hex c i disk disk') :
    (s.retrieveShard hex json blake3 c i disk').toOption = some data := by
  obtain ⟨hshard, hverifies⟩ := h.files
  rw [toOption_retrieveShard, hintact.1, hintact.2, hshard, Option.filter_some, if_pos hverifies]

/-- **A damaged store** returns what was stored, or an error, unless data of the same digest
was put in its place. -/
theorem StoresShard.retrieved_eq {data data' : Bytes}
    (h : StoresShard hex json blake3 c i data s disk)
    (hreplaced : s.AtMostOneReplaced hex c i disk disk')
    (hcollision : ∀ d, s.shardFile hex c i disk' = some d → blake3 d = blake3 data → d = data)
    (hretrieved : (s.retrieveShard hex json blake3 c i disk').toOption = some data') :
    data' = data := by
  obtain ⟨hshard, hverifies⟩ := h.files
  rw [toOption_retrieveShard, Option.filter_eq_some_iff] at hretrieved
  obtain ⟨hread, hverifies'⟩ := hretrieved
  rcases hreplaced with (hgone | hsame) | (hgone | hsame)
  · rw [hgone] at hread
    cases hread
  · rw [hsame, hshard] at hread
    exact (Option.some.inj hread).symm
  · -- without metadata nothing is verified
    rw [hgone] at hverifies'
    cases hverifies'
  · rw [hsame] at hverifies'
    exact hcollision data' hread (digest_eq_of_verifies hverifies' hverifies)

/-! ### Five nodes -/

/-- The index of a shard of the erasure code. -/
def nodeIndex (k : Fin rsTotalShards) : ShardIndex :=
  ⟨UInt64.ofNat k⟩

/-- The shards that the nodes return, with their indices. -/
def gather (hex : HexCodec) (json : MetaJson) (blake3 : HashFn) (c : ChunkId)
    (stores : Fin rsTotalShards → ShardStore) (disks : Fin rsTotalShards → Disk) :
    List (ℕ × Bytes) :=
  (List.finRange rsTotalShards).filterMap fun k =>
    ((stores k).retrieveShard hex json blake3 c (nodeIndex k) (disks k)).toOption.map
      fun data => (k.val, data)

variable {stores : Fin rsTotalShards → ShardStore} {disks : Fin rsTotalShards → Disk}

theorem mem_gather {p : ℕ × Bytes} :
    p ∈ gather hex json blake3 c stores disks ↔
      ∃ k : Fin rsTotalShards, p.1 = k.val ∧
        ((stores k).retrieveShard hex json blake3 c (nodeIndex k) (disks k)).toOption =
          some p.2 := by
  rw [gather, List.mem_filterMap]
  constructor
  · rintro ⟨k, -, hk⟩
    obtain ⟨data, hdata, rfl⟩ := Option.map_eq_some_iff.mp hk
    exact ⟨k, rfl, hdata⟩
  · rintro ⟨k, hk, hdata⟩
    refine ⟨k, List.mem_finRange k, ?_⟩
    rw [hdata, Option.map_some, ← hk]

/-- As many indices are gathered as there are nodes in a set that return their shards. -/
theorem card_le_gather {S : Finset (Fin rsTotalShards)}
    (h : ∀ k ∈ S, ∃ data, ((stores k).retrieveShard hex json blake3 c (nodeIndex k)
      (disks k)).toOption = some data) :
    S.card ≤ ((gather hex json blake3 c stores disks).map Prod.fst).dedup.length := by
  rw [← List.card_toFinset, ← S.card_image_of_injective Fin.val_injective]
  refine Finset.card_le_card fun n hn => ?_
  obtain ⟨k, hk, rfl⟩ := Finset.mem_image.mp hn
  obtain ⟨data, hdata⟩ := h k hk
  rw [List.mem_toFinset, List.mem_map]
  exact ⟨(k.val, data), mem_gather.mpr ⟨k, rfl, hdata⟩, rfl⟩

/-- **Recovery from damaged nodes**: the five shards of data that is not empty were stored on
five nodes. Whatever happened to the disks since, as long as three shards are intact, of every
other at most one file was replaced, and no shard was replaced by data of the same digest, the
shards that the nodes return are decoded to the data with its padding. -/
theorem recover_from_nodes (hex : HexCodec) (json : MetaJson) (blake3 : HashFn)
    {rs : ReedSolomon} (hrs : rs.Documented) {data : Bytes} (hne : data ≠ [])
    {shard : Fin rsTotalShards → Bytes} (henc : Erasure.encode rs data = .ok (List.ofFn shard))
    (c : ChunkId) {before after : Fin rsTotalShards → Disk}
    (hstored : ∀ k,
      StoresShard hex json blake3 c (nodeIndex k) (shard k) (stores k) (before k))
    (hdamage : ∀ k, (stores k).AtMostOneReplaced hex c (nodeIndex k) (before k) (after k))
    (hcollision : ∀ k d, (stores k).shardFile hex c (nodeIndex k) (after k) = some d →
      blake3 d = blake3 (shard k) → d = shard k)
    {S : Finset (Fin rsTotalShards)} (hthree : rsDataShards ≤ S.card)
    (hintact : ∀ k ∈ S, (stores k).Intact hex c (nodeIndex k) (before k) (after k)) :
    Erasure.reconstruct rs (gather hex json blake3 c stores after) =
      .ok (data ++ Erasure.padding data.length) := by
  obtain ⟨shards, henc', hrec⟩ := Erasure.reconstruct_encode hrs hne
  obtain rfl := Except.ok.inj (henc.symm.trans henc')
  refine hrec _ (fun p hp => ?_) (hthree.trans (card_le_gather fun k hk =>
    ⟨shard k, (hstored k).retrieved_of_intact (hintact k hk)⟩))
  obtain ⟨k, hk, hdata⟩ := mem_gather.mp hp
  rw [(hstored k).retrieved_eq (hdamage k) (hcollision k) hdata, hk, List.getElem?_ofFn]
  simp

/-- The shards of one byte. -/
def byteShard (k : Fin rsTotalShards) : Bytes :=
  [[1], [0], [0], [1], [15]].getD k.val []

/-- The disk of a node that stored a shard of the byte. -/
def byteDisk (k : Fin rsTotalShards) : Disk :=
  oneStore.callStep .lowercase .pretty stepDigest oneDisk
    (.store oneChunk (nodeIndex k) (byteShard k) "2024-01-01T00:00:00+00:00"
      "2024-01-01T00:00:00+00:00" none)

/-- On the first node the data is overwritten, and the disk of the second is empty. -/
def damagedDisk (k : Fin rsTotalShards) : Disk :=
  if k.val = 0 then
    (byteDisk k).insert (oneStore.shardPath .lowercase oneChunk (nodeIndex k)) (.file [9])
  else if k.val = 1 then ∅
  else byteDisk k

theorem storesShard_byteDisk (k : Fin rsTotalShards) :
    StoresShard .lowercase .pretty stepDigest oneChunk (nodeIndex k) (byteShard k) oneStore
      (byteDisk k) :=
  ⟨["shards"], ∅, oneDisk, [.store oneChunk (nodeIndex k) (byteShard k)
    "2024-01-01T00:00:00+00:00" "2024-01-01T00:00:00+00:00" none], fresh_empty _, new_oneStore,
    succeeds_of_noFault _ _ wellFormed_oneDisk (by simp [Call.NoFault]),
    by simp [stored, storedStep], rfl⟩

/-- What the damage left of the data files. -/
theorem shardFile_damagedDisk (k : Fin rsTotalShards) :
    oneStore.shardFile .lowercase oneChunk (nodeIndex k) (damagedDisk k) =
      if k.val = 0 then some [9] else if k.val = 1 then none else some (byteShard k) := by
  by_cases h0 : k.val = 0
  · rw [if_pos h0, damagedDisk, if_pos h0, shardFile, FileTree.read, AList.lookup_insert]
    rfl
  · by_cases h1 : k.val = 1
    · rw [if_neg h0, if_pos h1, damagedDisk, if_neg h0, if_pos h1]
      rfl
    · rw [if_neg h0, if_neg h1, damagedDisk, if_neg h0, if_neg h1]
      exact (storesShard_byteDisk k).files.1

theorem recover_from_nodes_byte :
    Erasure.reconstruct .galois8
        (gather .lowercase .pretty stepDigest oneChunk (fun _ => oneStore) damagedDisk) =
      .ok ([1] ++ Erasure.padding 1) := by
  refine recover_from_nodes .lowercase .pretty stepDigest ReedSolomon.galois8_documented
    (by decide) (Erasure.encode_byte.trans rfl) oneChunk storesShard_byteDisk (fun k => ?_)
    (fun k d hd heq => ?_) (S := Finset.univ.filter fun k => 2 ≤ k.val) (by decide)
    fun k hk => ?_
  · by_cases h0 : k.val = 0
    · refine Or.inr (Or.inr ?_)
      rw [damagedDisk, if_pos h0]
      exact congrArg Except.toOption (FileTree.read_congr
        (AList.lookup_insert_ne (shardPath_ne_metaPath _ _ _ _ _ _).symm))
    · by_cases h1 : k.val = 1
      · refine Or.inl (Or.inl ?_)
        rw [shardFile_damagedDisk, if_neg h0, if_pos h1]
      · refine Or.inl (Or.inr ?_)
        rw [damagedDisk, if_neg h0, if_neg h1]
  · rw [shardFile_damagedDisk] at hd
    split_ifs at hd with h0 h1
    · obtain rfl := Option.some.inj hd
      obtain rfl : k = ⟨0, by decide⟩ := Fin.ext h0
      exact absurd heq (by decide)
    · exact (Option.some.inj hd).symm
  · have hle : 2 ≤ k.val := (Finset.mem_filter.mp hk).2
    rw [damagedDisk, if_neg (by omega), if_neg (by omega)]
    exact ⟨rfl, rfl⟩

end ShardStore

end VaultKeeper
