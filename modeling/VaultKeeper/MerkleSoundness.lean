import VaultKeeper.Merkle

/-!
# What an Accepted Merkle Proof Says

`MerkleTree::verify_proof` checks that a path of its holder's choice folds to the root
the proof names. It compares neither the length of the path with the height of the tree
nor the sides with `leaf_index`, and leaves are hashed like inner nodes. This module
settles when an accepted proof with the root of a tree must carry the digest of the
chunk at its index.

Collisions are excluded among the byte strings actually hashed, in building the tree
(`MerkleTree.inputs`) and in verifying the proof (`MerkleProof.inputs`).

## Main results

* `ProofsSound.eq_root`: soundness would force every leaf, and both children of the
  root, to be the root itself.
* `MerkleTree.proofsSound_iff`: the exact trees against which proofs are sound. Beyond
  the empty tree these are the trees of one chunk that is not 64 bytes long, and trees
  over a digest that hashes to itself.
-/

namespace VaultKeeper

variable (hex : HexCodec) (blake3 : HashFn)

/-- **Soundness of proofs against the tree of some chunks**: an accepted proof with the
root of the tree and an index below the number of chunks carries the digest of the chunk
at that index, unless two different byte strings among those hashed collide. -/
def ProofsSound (chunks : List Bytes) : Prop :=
  ∀ p : MerkleProof,
    decodeHash hex p.root = some (MerkleTree.fromChunks blake3 chunks).root →
    p.leafIndex < chunks.length →
    Set.InjOn blake3 {b | b ∈ MerkleTree.inputs blake3 chunks ∨ b ∈ p.inputs hex blake3} →
    MerkleTree.verifyProof hex blake3 p = true →
    ∃ c, chunks[p.leafIndex]? = some c ∧ decodeHash hex p.leafHash = some (blake3 c)

variable {hex blake3} {chunks : List Bytes}

/-- A path over hashed pairs of the tree that folds to the root pins its leaf, wherever
in the tree it starts. -/
theorem ProofsSound.leaf_eq (hsound : ProofsSound hex blake3 chunks)
    (hinj : Set.InjOn blake3 {b | b ∈ MerkleTree.inputs blake3 chunks})
    (leaf : Hash) (path : List (Hash × Bool))
    (hin : ∀ q ∈ PairTree.foldPairs (hashPair blake3) leaf path,
      pairBytes q ∈ MerkleTree.inputs blake3 chunks)
    (hfold : PairTree.foldPath (hashPair blake3) leaf path =
      (MerkleTree.fromChunks blake3 chunks).root)
    {c : Bytes} (hc : c ∈ chunks) : leaf = blake3 c := by
  obtain ⟨i, hi, rfl⟩ := List.getElem_of_mem hc
  have hplay : {b | b ∈ MerkleTree.inputs blake3 chunks ∨
      b ∈ (MerkleProof.ofPath hex i leaf path
        (MerkleTree.fromChunks blake3 chunks).root).inputs hex blake3} ⊆
      {b | b ∈ MerkleTree.inputs blake3 chunks} := by
    rintro b (hb | hb)
    · exact hb
    · rw [MerkleProof.inputs_ofPath] at hb
      obtain ⟨q, hq, rfl⟩ := List.mem_map.mp hb
      exact hin q hq
  obtain ⟨c, hget, hleaf⟩ := hsound
    (MerkleProof.ofPath hex i leaf path (MerkleTree.fromChunks blake3 chunks).root)
    (decodeHash_encode hex _) hi (hinj.mono hplay)
    ((MerkleTree.verifyProof_ofPath_iff hex blake3 i leaf path _).mpr hfold)
  have hgot : chunks[i]? = some c := hget
  rw [List.getElem?_eq_getElem hi] at hgot
  obtain rfl : chunks[i] = c := Option.some.inj hgot
  have hdec : decodeHash hex (hex.encode leaf.bytes) = some (blake3 chunks[i]) := hleaf
  rw [decodeHash_encode] at hdec
  exact Option.some.inj hdec

/-- When the root is the digest of a pair among the inputs of the tree, soundness makes
every chunk and both members of the pair hash to the root, and every chunk that pair:
the empty path starts at the root, and the paths of one step start at the members. -/
theorem ProofsSound.eq_root (hsound : ProofsSound hex blake3 chunks)
    (hinj : Set.InjOn blake3 {b | b ∈ MerkleTree.inputs blake3 chunks})
    {q : Hash × Hash} (hq : pairBytes q ∈ MerkleTree.inputs blake3 chunks)
    (hroot : hashPair blake3 q.1 q.2 = (MerkleTree.fromChunks blake3 chunks).root)
    {c : Bytes} (hc : c ∈ chunks) :
    q = (blake3 c, blake3 c) ∧ c = pairBytes q := by
  have htop : (MerkleTree.fromChunks blake3 chunks).root = blake3 c :=
    hsound.leaf_eq hinj _ [] (by simp [PairTree.foldPairs]) rfl hc
  have hleft : q.1 = blake3 c :=
    hsound.leaf_eq hinj q.1 [(q.2, true)]
      (by simpa [PairTree.foldPairs, PairTree.stepPair] using hq)
      (by simpa [PairTree.foldPath, PairTree.foldStep] using hroot) hc
  have hright : q.2 = blake3 c :=
    hsound.leaf_eq hinj q.2 [(q.1, false)]
      (by simpa [PairTree.foldPairs, PairTree.stepPair] using hq)
      (by simpa [PairTree.foldPath, PairTree.foldStep] using hroot) hc
  refine ⟨Prod.ext hleft hright, ?_⟩
  exact hinj (List.mem_append_left _ hc) hq (htop.symm.trans hroot.symm)

/-- The tree of one chunk: its inputs are the chunk, its root the chunk's digest. -/
theorem root_fromChunks_singleton (c : Bytes) :
    (MerkleTree.fromChunks blake3 [c]).root = blake3 c := by
  rw [MerkleTree.root_fromChunks blake3 (by simp)]
  exact PairTree.top_singleton _ _ _

theorem inputs_singleton (c : Bytes) : MerkleTree.inputs blake3 [c] = [c] := by
  simp [MerkleTree.inputs]

/-- The root of two or more chunks is the digest of a pair among the inputs. -/
theorem exists_root_pair (blake3 : HashFn) {chunks : List Bytes} (h : 1 < chunks.length) :
    ∃ q : Hash × Hash, pairBytes q ∈ MerkleTree.inputs blake3 chunks ∧
      hashPair blake3 q.1 q.2 = (MerkleTree.fromChunks blake3 chunks).root := by
  have hlen : 1 < (chunks.map blake3).length := by simpa using h
  have hne : chunks.map blake3 ≠ [] := List.length_pos_iff.mp (by omega)
  obtain ⟨q, hq, htop⟩ := PairTree.exists_joined_top (hashPair blake3) hne hlen
  refine ⟨q, List.mem_append_right _ (List.mem_map_of_mem hq), ?_⟩
  rw [MerkleTree.root_fromChunks blake3 hne, htop]

/-- The verifier hashes the pairs on its way to the root. -/
theorem MerkleProof.pairBytes_mem_inputs {p : MerkleProof} {leaf : Hash}
    {path : List (Hash × Bool)} (hleaf : decodeHash hex p.leafHash = some leaf)
    (hpath : decodePath hex p.siblings = some path) {q : Hash × Hash}
    (hq : q ∈ PairTree.foldPairs (hashPair blake3) leaf path) :
    pairBytes q ∈ p.inputs hex blake3 := by
  rw [MerkleProof.inputs, hleaf]
  simp only [verifyLoopInputs_eq hex blake3 leaf hpath]
  exact List.mem_map_of_mem hq

/-- Against one chunk that is not 64 bytes long proofs are sound: a path that is not
empty ends in 64 hashed bytes, and these would collide with the chunk. -/
theorem proofsSound_singleton {c : Bytes} (hc : c.length ≠ 64) :
    ProofsSound hex blake3 [c] := by
  intro p hroot hidx hinj hv
  obtain ⟨leaf, path, hleaf, hpath, hfold⟩ :=
    (MerkleTree.verifyProof_eq_true_iff hex blake3 p).mp hv
  rw [hroot, root_fromChunks_singleton, Option.some.injEq] at hfold
  have hi : p.leafIndex = 0 := by simpa using hidx
  refine ⟨c, by simp [hi], ?_⟩
  rw [hleaf]
  by_cases hnil : path = []
  · subst hnil
    exact congrArg some hfold.symm
  · obtain ⟨q, hq, hlast⟩ := PairTree.exists_foldPairs_foldPath (hashPair blake3) leaf hnil
    have hmem := MerkleProof.pairBytes_mem_inputs hleaf hpath hq
    have heq : c = pairBytes q :=
      hinj (Or.inl (by simp [inputs_singleton])) (Or.inr hmem) (hfold.trans hlast)
    exact absurd (heq ▸ length_pairBytes q) hc

/-- Against chunks that are all one digest, written twice, with that digest as its hash,
proofs are sound: every walk that reaches the digest was there from the start. -/
theorem proofsSound_of_self {h : Hash} (hself : blake3 (h.bytes ++ h.bytes) = h)
    (hall : ∀ c ∈ chunks, c = h.bytes ++ h.bytes) (hne : chunks ≠ []) :
    ProofsSound hex blake3 chunks := by
  have hleaves : ∀ d ∈ chunks.map blake3, d = h := by
    intro d hd
    obtain ⟨c, hc, rfl⟩ := List.mem_map.mp hd
    rw [hall c hc, hself]
  have hmapne : chunks.map blake3 ≠ [] := by simpa using hne
  have htop : (MerkleTree.fromChunks blake3 chunks).root = h := by
    rw [MerkleTree.root_fromChunks blake3 hmapne]
    exact PairTree.top_eq_fixed _ hself hmapne hleaves
  obtain ⟨c₀, hc₀⟩ := List.exists_mem_of_ne_nil chunks hne
  have hpair : pairBytes (h, h) ∈ MerkleTree.inputs blake3 chunks := by
    have hmem := hc₀
    rw [hall c₀ hc₀] at hmem
    exact List.mem_append_left _ hmem
  intro p hroot hidx hinj hv
  obtain ⟨leaf, path, hleaf, hpath, hfold⟩ :=
    (MerkleTree.verifyProof_eq_true_iff hex blake3 p).mp hv
  rw [hroot, htop, Option.some.injEq] at hfold
  have hfix : leaf = h := by
    refine PairTree.foldPath_eq_fixed (hashPair blake3) ?_ hfold.symm
    intro q hq hjoin
    have hmem := MerkleProof.pairBytes_mem_inputs hleaf hpath hq
    exact pairBytes_injective
      (hinj (Or.inr hmem) (Or.inl hpair) (hjoin.trans hself.symm))
  refine ⟨_, List.getElem?_eq_getElem hidx, ?_⟩
  rw [hleaf, hfix, hall _ (List.getElem_mem hidx), hself]

/-- **When proofs are sound.** Without collisions in the tree, proofs against it are
sound exactly when it has no chunk, one chunk that is not 64 bytes long, or only chunks
that are one digest, written twice, with that digest as its hash. -/
theorem MerkleTree.proofsSound_iff (hex : HexCodec) (blake3 : HashFn) (chunks : List Bytes)
    (hinj : Set.InjOn blake3 {b | b ∈ MerkleTree.inputs blake3 chunks}) :
    ProofsSound hex blake3 chunks ↔
      chunks = [] ∨ (∃ c, chunks = [c] ∧ c.length ≠ 64) ∨
        ∃ h : Hash, blake3 (h.bytes ++ h.bytes) = h ∧
          ∀ c ∈ chunks, c = h.bytes ++ h.bytes := by
  constructor
  · intro hsound
    -- a pair under the root leaves only chunks that are a digest hashing to itself
    have hself : ∀ q : Hash × Hash, pairBytes q ∈ MerkleTree.inputs blake3 chunks →
        hashPair blake3 q.1 q.2 = (MerkleTree.fromChunks blake3 chunks).root →
        chunks ≠ [] → ∃ h : Hash, blake3 (h.bytes ++ h.bytes) = h ∧
          ∀ c ∈ chunks, c = h.bytes ++ h.bytes := by
      intro q hq hroot hne
      obtain ⟨c₀, hc₀⟩ := List.exists_mem_of_ne_nil chunks hne
      obtain ⟨rfl, heq⟩ := hsound.eq_root hinj hq hroot hc₀
      refine ⟨blake3 c₀, (congrArg blake3 heq).symm, fun c hc => ?_⟩
      exact (hsound.eq_root hinj hq hroot hc).2
    match chunks, hself with
    | [], _ => exact Or.inl rfl
    | [c], hself =>
        by_cases hc : c.length = 64
        · obtain ⟨q, rfl⟩ := exists_pairBytes hc
          exact Or.inr (Or.inr (hself q (by simp [inputs_singleton])
            (root_fromChunks_singleton _).symm (by simp)))
        · exact Or.inr (Or.inl ⟨c, rfl, hc⟩)
    | c :: d :: rest, hself =>
        obtain ⟨q, hq, hroot⟩ :=
          exists_root_pair blake3 (show 1 < (c :: d :: rest).length by simp)
        exact Or.inr (Or.inr (hself q hq hroot (by simp)))
  · rintro (rfl | ⟨c, rfl, hc⟩ | ⟨h, hself, hall⟩)
    · intro p _ hidx
      simp at hidx
    · exact proofsSound_singleton hc
    · by_cases hne : chunks = []
      · subst hne
        intro p _ hidx
        simp at hidx
      · exact proofsSound_of_self hself hall hne

/-- The digest of the chunk `b"a"`. -/
def digestA : Hash where
  bytes := [23, 118, 47, 221, 217, 105, 164, 83, 146, 93, 101, 113, 122, 195, 238, 162,
    19, 32, 182, 107, 84, 52, 47, 222, 21, 18, 141, 108, 175, 33, 33, 95]
  size := rfl

/-- The digest of the chunk `b"b"`. -/
def digestB : Hash where
  bytes := [16, 229, 207, 61, 60, 138, 79, 159, 52, 104, 200, 204, 88, 238, 168, 72,
    146, 162, 47, 218, 219, 193, 172, 178, 36, 16, 25, 0, 68, 193, 213, 83]
  size := rfl

/-- The root of the tree over the chunks `b"a"` and `b"b"`. -/
def rootAB : Hash where
  bytes := [137, 18, 241, 228, 157, 108, 148, 131, 7, 135, 188, 135, 101, 233, 47, 64,
    157, 109, 185, 4, 23, 57, 136, 74, 66, 229, 159, 22, 56, 135, 86, 177]
  size := rfl

/-- `blake3` on the byte strings hashed in the tree over `b"a"` and `b"b"`. -/
def blake3AB : HashFn :=
  tabulated [([97], digestA), ([98], digestB), (digestA.bytes ++ digestB.bytes, rootAB)]

theorem inputs_AB :
    MerkleTree.inputs blake3AB [[97], [98]] =
      [[97], [98], digestA.bytes ++ digestB.bytes] := by
  decide

theorem blake3AB_injOn :
    Set.InjOn blake3AB {b | b ∈ MerkleTree.inputs blake3AB [[97], [98]]} := by
  rw [inputs_AB]
  have hall : ∀ x ∈ [[97], [98], digestA.bytes ++ digestB.bytes],
      ∀ y ∈ [[97], [98], digestA.bytes ++ digestB.bytes],
        blake3AB x = blake3AB y → x = y := by decide
  exact fun x hx y hy => hall x hx y hy

theorem MerkleTree.proofsSound_iff_AB :
    ProofsSound HexCodec.lowercase blake3AB [[97], [98]] ↔
      [[97], [98]] = ([] : List Bytes) ∨
        (∃ c : Bytes, [[97], [98]] = [c] ∧ c.length ≠ 64) ∨
          ∃ h : Hash, blake3AB (h.bytes ++ h.bytes) = h ∧
            ∀ c ∈ ([[97], [98]] : List Bytes), c = h.bytes ++ h.bytes :=
  MerkleTree.proofsSound_iff HexCodec.lowercase blake3AB [[97], [98]] blake3AB_injOn

/-- The root of a tree of two chunks passes as its first leaf, by the empty path. -/
theorem MerkleTree.root_passes_as_leaf :
    Set.InjOn blake3AB {b | b ∈ MerkleTree.inputs blake3AB [[97], [98]]} ∧
      ¬ ProofsSound HexCodec.lowercase blake3AB [[97], [98]] := by
  refine ⟨blake3AB_injOn, fun hsound => ?_⟩
  have hleaf : (MerkleTree.fromChunks blake3AB [[97], [98]]).root = blake3AB [97] :=
    hsound.leaf_eq blake3AB_injOn _ [] (by simp [PairTree.foldPairs]) rfl (by simp)
  exact absurd hleaf (by decide)

end VaultKeeper
