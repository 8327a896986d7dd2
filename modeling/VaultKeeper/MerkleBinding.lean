import VaultKeeper.MerkleSoundness
import VaultKeeper.PairFill

/-!
# What a Merkle Root Says about the Chunks

`MerkleTree::from_chunks` hashes leaves like inner nodes, joins the last node of an odd
layer with itself, and gives the empty list the hash of the empty string. Each of the three
lets two lists of chunks share a root without a collision of hashes:

* `[a, b, c]` and `[a, b, c, c]` have the same layers from the second on;
* a chunk of 64 bytes may spell two digests that are joined in another tree;
* the empty list has the root of the list of one empty chunk.

Collisions are excluded among the byte strings hashed in the two constructions
(`MerkleTree.hashed`).

## Main results

* `MerkleTree.eq_of_root_eq`: the root and the number of chunks determine the chunks.
* `MerkleTree.root_eq_iff_filled_eq`: the chunks that lists with one root have in common,
  when no chunk spells a pair of digests joined in the other tree.
-/

namespace VaultKeeper

variable {blake3 : HashFn} {chunks chunks₁ chunks₂ : List Bytes}

/-- The chunks a tree hashes: the empty list is hashed like one empty chunk. -/
def MerkleTree.orEmpty (chunks : List Bytes) : List Bytes :=
  if chunks = [] then [[]] else chunks

/-- The byte strings hashed in building the tree of some chunks, the empty string in the
tree of no chunks among them. -/
def MerkleTree.hashed (blake3 : HashFn) (chunks : List Bytes) : List Bytes :=
  MerkleTree.inputs blake3 (MerkleTree.orEmpty chunks)

/-- No chunk of the first list spells two digests that are joined in the tree of the
second. -/
def MerkleTree.NoChunkJoined (blake3 : HashFn) (chunks₁ chunks₂ : List Bytes) : Prop :=
  ∀ c ∈ chunks₁, ∀ q ∈ PairTree.joined (hashPair blake3) (chunks₂.map blake3), c ≠ pairBytes q

theorem MerkleTree.orEmpty_ne_nil (chunks : List Bytes) :
    MerkleTree.orEmpty chunks ≠ [] := by
  rw [MerkleTree.orEmpty]
  split
  · simp
  · assumption

theorem MerkleTree.root_orEmpty (blake3 : HashFn) (chunks : List Bytes) :
    (MerkleTree.fromChunks blake3 (MerkleTree.orEmpty chunks)).root =
      (MerkleTree.fromChunks blake3 chunks).root := by
  rw [MerkleTree.orEmpty]
  split
  · next hnil =>
      rw [hnil, root_fromChunks_singleton]
      rfl
  · rfl

/-- The root as the top of the digests of the hashed chunks. -/
theorem MerkleTree.root_eq_top (blake3 : HashFn) (chunks : List Bytes) :
    (MerkleTree.fromChunks blake3 chunks).root =
      PairTree.top (hashPair blake3) ((MerkleTree.orEmpty chunks).map blake3)
        (by simpa using MerkleTree.orEmpty_ne_nil chunks) := by
  rw [← MerkleTree.root_orEmpty, MerkleTree.root_fromChunks]

/-- The one empty chunk that stands for no chunks spells no pair and is joined with none. -/
theorem MerkleTree.NoChunkJoined.orEmpty (h : MerkleTree.NoChunkJoined blake3 chunks₁ chunks₂) :
    MerkleTree.NoChunkJoined blake3 (MerkleTree.orEmpty chunks₁)
      (MerkleTree.orEmpty chunks₂) := by
  intro c hc q hq heq
  have hlen : c.length = 64 := by rw [heq, length_pairBytes]
  have hc' : c ∈ chunks₁ := by
    rw [MerkleTree.orEmpty] at hc
    split at hc
    · obtain rfl : c = [] := by simpa using hc
      simp at hlen
    · exact hc
  have hq' : q ∈ PairTree.joined (hashPair blake3) (chunks₂.map blake3) := by
    rw [MerkleTree.orEmpty] at hq
    split at hq
    · simp at hq
    · exact hq
  exact h c hc' q hq' heq

section Binding

variable (hinj : Set.InjOn blake3
  {b | b ∈ MerkleTree.hashed blake3 chunks₁ ∨ b ∈ MerkleTree.hashed blake3 chunks₂})
include hinj

theorem MerkleTree.joined_injOn :
    Set.InjOn (fun p : Hash × Hash => hashPair blake3 p.1 p.2)
      {p | p ∈ PairTree.joined (hashPair blake3) ((MerkleTree.orEmpty chunks₁).map blake3) ∨
        p ∈ PairTree.joined (hashPair blake3) ((MerkleTree.orEmpty chunks₂).map blake3)} := by
  refine hashPair_injOn blake3 (hinj.mono ?_)
  rintro b ⟨p, hp | hp, rfl⟩
  · exact Or.inl (List.mem_append_right _ (List.mem_map_of_mem hp))
  · exact Or.inr (List.mem_append_right _ (List.mem_map_of_mem hp))

theorem MerkleTree.chunks_injOn :
    Set.InjOn blake3
      {b | b ∈ MerkleTree.orEmpty chunks₁ ∨ b ∈ MerkleTree.orEmpty chunks₂} :=
  hinj.mono fun _ hb => hb.imp (List.mem_append_left _) (List.mem_append_left _)

/-- Chunks that spell no joined pair have digests that are no joins. -/
theorem MerkleTree.apart_of_noChunkJoined
    (h : MerkleTree.NoChunkJoined blake3 chunks₁ chunks₂) :
    PairTree.Apart (hashPair blake3) ((MerkleTree.orEmpty chunks₁).map blake3)
      ((MerkleTree.orEmpty chunks₂).map blake3) := by
  intro x hx q hq heq
  obtain ⟨c, hc, rfl⟩ := List.mem_map.mp hx
  refine h.orEmpty c hc q hq (hinj (Or.inl ?_) (Or.inr ?_) heq)
  · exact List.mem_append_left _ hc
  · exact List.mem_append_right _ (List.mem_map_of_mem hq)

/-- **Binding for one length**: the root and the number of chunks determine the chunks. -/
theorem MerkleTree.eq_of_root_eq (hlen : chunks₁.length = chunks₂.length)
    (h : (MerkleTree.fromChunks blake3 chunks₁).root =
      (MerkleTree.fromChunks blake3 chunks₂).root) : chunks₁ = chunks₂ := by
  by_cases hnil : chunks₁ = []
  · subst hnil
    exact (List.length_eq_zero_iff.mp hlen.symm).symm
  · have hnil₂ : chunks₂ ≠ [] := by
      rintro rfl
      exact hnil (List.length_eq_zero_iff.mp hlen)
    have hjoined := MerkleTree.joined_injOn hinj
    have hchunks := MerkleTree.chunks_injOn hinj
    simp only [MerkleTree.orEmpty, if_neg hnil, if_neg hnil₂] at hjoined hchunks
    have hne₁ : chunks₁.map blake3 ≠ [] := by simpa using hnil
    have hne₂ : chunks₂.map blake3 ≠ [] := by simpa using hnil₂
    rw [MerkleTree.root_fromChunks blake3 hne₁, MerkleTree.root_fromChunks blake3 hne₂] at h
    exact PairTree.eq_of_map_eq hchunks
      (PairTree.top_injOn (hashPair blake3) hne₁ hne₂ (by simpa using hlen) hjoined h)

/-- **What the root says**: when no chunk of one list spells a pair of digests joined in the
tree of the other, the roots are equal exactly when the hashed chunks, filled up to a power
of two by the rounds of the tree, are. -/
theorem MerkleTree.root_eq_iff_filled_eq
    (h₁ : MerkleTree.NoChunkJoined blake3 chunks₁ chunks₂)
    (h₂ : MerkleTree.NoChunkJoined blake3 chunks₂ chunks₁) :
    (MerkleTree.fromChunks blake3 chunks₁).root =
        (MerkleTree.fromChunks blake3 chunks₂).root ↔
      PairTree.filled (MerkleTree.orEmpty chunks₁) =
        PairTree.filled (MerkleTree.orEmpty chunks₂) := by
  have hap₁ := MerkleTree.apart_of_noChunkJoined hinj h₁
  have hap₂ := MerkleTree.apart_of_noChunkJoined (hinj.mono fun b hb => Or.symm hb) h₂
  rw [MerkleTree.root_eq_top, MerkleTree.root_eq_top,
    PairTree.top_eq_iff_filled_eq _ _ _ (MerkleTree.joined_injOn hinj) hap₁ hap₂,
    PairTree.filled_map, PairTree.filled_map]
  constructor
  · intro heq
    refine PairTree.eq_of_map_eq ((MerkleTree.chunks_injOn hinj).mono ?_) heq
    exact fun b hb => hb.imp PairTree.mem_of_mem_fill PairTree.mem_of_mem_fill
  · intro heq
    rw [heq]

end Binding

/-- The binding of the root, for two lists of chunks: without a collision among the byte
strings hashed for them, equal roots come from equal lists. -/
def MerkleTree.RootBinds (blake3 : HashFn) (chunks₁ chunks₂ : List Bytes) : Prop :=
  Set.InjOn blake3
      {b | b ∈ MerkleTree.hashed blake3 chunks₁ ∨ b ∈ MerkleTree.hashed blake3 chunks₂} →
    (MerkleTree.fromChunks blake3 chunks₁).root =
      (MerkleTree.fromChunks blake3 chunks₂).root →
    chunks₁ = chunks₂

/-- **What the root binds**: a list among the lists of its length; and, when no chunk of
either list spells a pair of digests joined in the tree of the other, the list as the rounds
fill it up. -/
theorem MerkleTree.root_binds_filled (blake3 : HashFn) (chunks₁ chunks₂ : List Bytes)
    (hinj : Set.InjOn blake3
      {b | b ∈ MerkleTree.hashed blake3 chunks₁ ∨ b ∈ MerkleTree.hashed blake3 chunks₂}) :
    (chunks₁.length = chunks₂.length →
      (MerkleTree.fromChunks blake3 chunks₁).root =
        (MerkleTree.fromChunks blake3 chunks₂).root → chunks₁ = chunks₂) ∧
    (MerkleTree.NoChunkJoined blake3 chunks₁ chunks₂ →
      MerkleTree.NoChunkJoined blake3 chunks₂ chunks₁ →
      ((MerkleTree.fromChunks blake3 chunks₁).root =
          (MerkleTree.fromChunks blake3 chunks₂).root ↔
        PairTree.filled (MerkleTree.orEmpty chunks₁) =
          PairTree.filled (MerkleTree.orEmpty chunks₂))) :=
  ⟨MerkleTree.eq_of_root_eq hinj, MerkleTree.root_eq_iff_filled_eq hinj⟩

/-! ### Concrete trees -/

/-- The digest of the chunk `b"c"`. -/
def digestC : Hash where
  bytes := [234, 122, 161, 252, 158, 253, 190, 16, 109, 187, 112, 54, 154, 117, 233, 103, 31,
    162, 157, 82, 189, 85, 83, 103, 17, 191, 25, 116, 119, 184, 240, 33]
  size := rfl

/-- The digest of the pair of two digests of `b"c"`. -/
def digestCC : Hash where
  bytes := [131, 118, 62, 182, 179, 249, 113, 136, 80, 230, 178, 58, 191, 244, 210, 136, 108,
    247, 11, 73, 126, 7, 97, 147, 238, 163, 88, 28, 27, 19, 79, 85]
  size := rfl

/-- The root of the tree over the chunks `b"a"`, `b"b"` and `b"c"`. -/
def rootABC : Hash where
  bytes := [36, 138, 248, 188, 200, 222, 18, 78, 166, 241, 54, 226, 49, 140, 112, 221, 20, 41,
    243, 237, 225, 228, 179, 115, 108, 253, 159, 194, 160, 133, 225, 199]
  size := rfl

/-- The digest of the empty string. -/
def emptyDigest : Hash where
  bytes := [175, 19, 73, 185, 245, 249, 161, 166, 160, 64, 77, 234, 54, 220, 201, 73, 155, 203,
    37, 201, 173, 193, 18, 183, 204, 154, 147, 202, 228, 31, 50, 98]
  size := rfl

/-- The byte strings hashed in the trees over `b"a"`, `b"b"` and `b"c"` and over no chunks,
with their digests. -/
def tableABC : List (Bytes × Hash) :=
  [([97], digestA), ([98], digestB), ([99], digestC),
    (digestA.bytes ++ digestB.bytes, rootAB), (digestC.bytes ++ digestC.bytes, digestCC),
    (rootAB.bytes ++ digestCC.bytes, rootABC), ([], emptyDigest)]

theorem tableABC_injOn {chunks₁ chunks₂ : List Bytes}
    (h₁ : ∀ b ∈ MerkleTree.hashed (tabulated tableABC) chunks₁, b ∈ tableABC.map Prod.fst)
    (h₂ : ∀ b ∈ MerkleTree.hashed (tabulated tableABC) chunks₂, b ∈ tableABC.map Prod.fst) :
    Set.InjOn (tabulated tableABC)
      {b | b ∈ MerkleTree.hashed (tabulated tableABC) chunks₁ ∨
        b ∈ MerkleTree.hashed (tabulated tableABC) chunks₂} := by
  have htable : Set.InjOn (tabulated tableABC) {b | b ∈ tableABC.map Prod.fst} :=
    tabulated_injOn (by decide) (by decide)
  refine htable.mono ?_
  rintro b (hb | hb)
  · exact h₁ b hb
  · exact h₂ b hb

/-- The last chunk of three is joined with itself, 64 bytes pass as a leaf, and no chunks
hash like an empty one. -/
theorem MerkleTree.root_shared :
    ¬ MerkleTree.RootBinds (tabulated tableABC) [[97], [98], [99]] [[97], [98], [99], [99]] ∧
    ¬ MerkleTree.RootBinds (tabulated tableABC) [[97], [98]]
      [digestA.bytes ++ digestB.bytes] ∧
    ¬ MerkleTree.RootBinds (tabulated tableABC) [] [[]] := by
  refine ⟨fun h => ?_, fun h => ?_, fun h => ?_⟩
  · exact absurd (h (tableABC_injOn (by decide) (by decide)) (by decide)) (by decide)
  · exact absurd (h (tableABC_injOn (by decide) (by decide)) (by decide)) (by decide)
  · exact absurd (h (tableABC_injOn (by decide) (by decide)) (by decide)) (by decide)

theorem MerkleTree.root_binds_filled_ABC :
    ([[97], [98], [99]].length = [[97], [98], [99], [99]].length →
      (MerkleTree.fromChunks (tabulated tableABC) [[97], [98], [99]]).root =
        (MerkleTree.fromChunks (tabulated tableABC) [[97], [98], [99], [99]]).root →
      ([[97], [98], [99]] : List Bytes) = [[97], [98], [99], [99]]) ∧
    (MerkleTree.NoChunkJoined (tabulated tableABC) [[97], [98], [99]]
        [[97], [98], [99], [99]] →
      MerkleTree.NoChunkJoined (tabulated tableABC) [[97], [98], [99], [99]]
        [[97], [98], [99]] →
      ((MerkleTree.fromChunks (tabulated tableABC) [[97], [98], [99]]).root =
          (MerkleTree.fromChunks (tabulated tableABC) [[97], [98], [99], [99]]).root ↔
        PairTree.filled (MerkleTree.orEmpty [[97], [98], [99]]) =
          PairTree.filled (MerkleTree.orEmpty [[97], [98], [99], [99]]))) :=
  MerkleTree.root_binds_filled (tabulated tableABC) [[97], [98], [99]]
    [[97], [98], [99], [99]] (tableABC_injOn (by decide) (by decide))

end VaultKeeper
