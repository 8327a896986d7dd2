import VaultKeeper.Merkle
import VaultKeeper.Message

/-!
# Proof of Storage

`p2p/src/challenge.rs`: a verifier names leaves of a chunk, and the host answers with the
leaves, a path for each of them and the root the paths lead to.

`ChallengeGenerator::verify_proof` compares the chunk and the indices of the answer with
those of the challenge and stops there. Leaves, paths and root are never read, so that an
answer with anything in their place passes (`verifyProof_answer`).

## Main results

* `StorageProof.folds_iff`: a path in the order of the bits of its index leads to the root
  exactly when `MerkleTree::verify_proof` accepts it.
* `ChallengeGenerator.verifyProof_eq_true_iff`: what an accepted answer has in common with
  its challenge, and nothing more.
* `ChallengeGenerator.accepts_without_data`: to every challenge there is an accepted answer
  of a host that has nothing.
-/

namespace VaultKeeper

variable (hex : HexCodec) (blake3 : HashFn)

/-- Verify a storage proof against a challenge. After the lengths are compared every index
of the proof has one of the challenge at its place. -/
def ChallengeGenerator.verifyProof (challenge : StorageChallenge) (proof : StorageProof) :
    Bool :=
  if proof.chunkId ≠ challenge.chunkId then false
  else if proof.leafIndices.length ≠ challenge.leafIndices.length then false
  else
    proof.leafIndices.zipIdx.all fun entry =>
      challenge.leafIndices[entry.2]? == some entry.1

/-! ### What an answer has to show -/

/-- The siblings of a path, each on the side the bit of the index says: on the right of a
node with an even index, on the left of a node with an odd one. -/
def indexPath : ℕ → List Hash → List (Hash × Bool)
  | _, [] => []
  | index, sibling :: rest => (sibling, index % 2 == 0) :: indexPath (index / 2) rest

/-- The path of the leaf at an index leads from the hash of the leaf to the root. -/
def StorageProof.Folds (proof : StorageProof) (index : UInt64) (leaf : Bytes)
    (path : List String) : Prop :=
  ∃ siblings, path.mapM (decodeHash hex) = some siblings ∧
    decodeHash hex proof.root =
      some (PairTree.foldPath (hashPair blake3) (blake3 leaf)
        (indexPath index.toNat siblings))

/-- An answer shows the challenged data: a leaf and a path for each challenged index, and
every leaf is led to the root by its path. -/
structure StorageProof.Possesses (challenge : StorageChallenge) (proof : StorageProof) :
    Prop where
  leaves : proof.leaves.length = challenge.leafIndices.length
  proofs : proof.proofs.length = challenge.leafIndices.length
  folds : ∀ (k : ℕ) (index : UInt64) (leaf : Bytes) (path : List String),
    challenge.leafIndices[k]? = some index → proof.leaves[k]? = some leaf →
    proof.proofs[k]? = some path → proof.Folds hex blake3 index leaf path

/-- The Merkle proof an answer contains for one of its leaves. -/
def StorageProof.merkleProof (proof : StorageProof) (index : UInt64) (leaf : Bytes)
    (path : List String) : MerkleProof where
  leafIndex := index.toNat
  leafHash := hex.encode (blake3 leaf).bytes
  siblings := path.zipIdx.map fun entry =>
    { hash := entry.1, isRight := index.toNat / 2 ^ entry.2 % 2 == 0 }
  root := proof.root

/-- Siblings on the sides of the index decode to the path of the index. Induction on the
path; the levels below shift the index. -/
theorem decodePath_sides (index level : ℕ) (path : List String) :
    decodePath hex ((path.zipIdx level).map fun entry =>
        { hash := entry.1, isRight := index / 2 ^ entry.2 % 2 == 0 }) =
      (path.mapM (decodeHash hex)).map (indexPath (index / 2 ^ level)) := by
  induction path generalizing level with
  | nil => rfl
  | cons s rest ih =>
      have hshift : index / 2 ^ (level + 1) = index / 2 ^ level / 2 := by
        rw [pow_succ, Nat.div_div_eq_div_mul]
      simp only [List.zipIdx_cons, List.map_cons, decodePath, ih, List.mapM_cons]
      cases decodeHash hex s with
      | none => rfl
      | some d =>
          cases List.mapM (decodeHash hex) rest with
          | none => rfl
          | some siblings =>
              simp [indexPath, hshift]

/-- A path leads to the root exactly when the verifier of Merkle proofs accepts it on the
sides of its index. -/
theorem StorageProof.folds_iff (proof : StorageProof) (index : UInt64) (leaf : Bytes)
    (path : List String) :
    proof.Folds hex blake3 index leaf path ↔
      MerkleTree.verifyProof hex blake3 (proof.merkleProof hex blake3 index leaf path) =
        true := by
  have hpath : decodePath hex (proof.merkleProof hex blake3 index leaf path).siblings =
      (path.mapM (decodeHash hex)).map (indexPath index.toNat) := by
    simpa [StorageProof.merkleProof] using decodePath_sides hex index.toNat 0 path
  have hleaf : decodeHash hex (proof.merkleProof hex blake3 index leaf path).leafHash =
      some (blake3 leaf) := decodeHash_encode hex _
  rw [MerkleTree.verifyProof_eq_true_iff, hpath, hleaf]
  constructor
  · rintro ⟨siblings, hs, hroot⟩
    exact ⟨_, _, rfl, by rw [hs]; rfl, hroot⟩
  · rintro ⟨_, _, hl, hs, hroot⟩
    obtain rfl := Option.some.inj hl
    obtain ⟨siblings, hsiblings, rfl⟩ := Option.map_eq_some_iff.mp hs
    exact ⟨siblings, hsiblings, hroot⟩

/-! ### What is accepted -/

/-- The comparison by place finds two lists of one length equal. -/
theorem zipIdx_all_iff {α : Type*} [BEq α] [LawfulBEq α] {l m : List α}
    (h : l.length = m.length) :
    (l.zipIdx.all fun entry => m[entry.2]? == some entry.1) = true ↔ l = m := by
  rw [List.all_eq_true]
  constructor
  · intro hall
    refine List.ext_getElem h fun i hl hm => ?_
    have hi := hall (l[i], i) (by simp [List.mem_zipIdx_iff_getElem?, hl])
    simpa [hm] using (beq_iff_eq.mp hi).symm
  · rintro rfl entry hentry
    rw [List.mem_zipIdx_iff_getElem?] at hentry
    simpa using hentry

/-- **The verifier's specification**: an answer is accepted exactly when it names the chunk
and the indices of the challenge. -/
theorem ChallengeGenerator.verifyProof_eq_true_iff (challenge : StorageChallenge)
    (proof : StorageProof) :
    ChallengeGenerator.verifyProof challenge proof = true ↔
      proof.chunkId = challenge.chunkId ∧ proof.leafIndices = challenge.leafIndices := by
  rw [ChallengeGenerator.verifyProof]
  by_cases hid : proof.chunkId = challenge.chunkId
  · by_cases hlen : proof.leafIndices.length = challenge.leafIndices.length
    · rw [if_neg (not_not.mpr hid), if_neg (not_not.mpr hlen), zipIdx_all_iff hlen]
      simp [hid]
    · have hne : proof.leafIndices ≠ challenge.leafIndices := fun heq =>
        hlen (congrArg List.length heq)
      simp [hid, hlen, hne]
  · simp [hid]

/-- The answer to a challenge that repeats its indices, with leaves, paths and a root of
the host's choice. -/
def StorageChallenge.answer (challenge : StorageChallenge) (leaves : List Bytes)
    (proofs : List (List String)) (root : String) : StorageProof where
  chunkId := challenge.chunkId
  leafIndices := challenge.leafIndices
  leaves := leaves
  proofs := proofs
  root := root

/-- Whatever a host puts in the other fields, the answer is accepted. -/
theorem ChallengeGenerator.verifyProof_answer (challenge : StorageChallenge)
    (leaves : List Bytes) (proofs : List (List String)) (root : String) :
    ChallengeGenerator.verifyProof challenge (challenge.answer leaves proofs root) = true :=
  (ChallengeGenerator.verifyProof_eq_true_iff challenge _).mpr ⟨rfl, rfl⟩

/-- An answer with the wrong number of leaves shows nothing. -/
theorem StorageChallenge.not_possesses_of_leaves (challenge : StorageChallenge)
    {leaves : List Bytes} (h : leaves.length ≠ challenge.leafIndices.length)
    (proofs : List (List String)) (root : String) :
    ¬ (challenge.answer leaves proofs root).Possesses hex blake3 challenge :=
  fun hp => h hp.leaves

/-- To every challenge there is an answer that shows the data it names: one leaf for all
indices, which is the whole tree. -/
theorem StorageChallenge.possesses_of_one_leaf (challenge : StorageChallenge) (leaf : Bytes) :
    (challenge.answer (List.replicate challenge.leafIndices.length leaf)
      (List.replicate challenge.leafIndices.length [])
      (hex.encode (blake3 leaf).bytes)).Possesses hex blake3 challenge where
  leaves := by simp [StorageChallenge.answer]
  proofs := by simp [StorageChallenge.answer]
  folds := by
    intro k index leaf' path _ hleaf hpath
    obtain rfl := (List.mem_replicate.mp (List.mem_of_getElem? hleaf)).2
    obtain rfl := (List.mem_replicate.mp (List.mem_of_getElem? hpath)).2
    exact ⟨[], rfl, decodeHash_encode hex _⟩

/-- **Acceptance shows nothing.** For every challenge, an answer is accepted exactly when it
repeats the chunk and the indices, and some accepted answer does not show the data: one
with a leaf too many. -/
theorem ChallengeGenerator.accepts_without_data (hex : HexCodec) (blake3 : HashFn)
    (challenge : StorageChallenge) :
    (∀ proof, ChallengeGenerator.verifyProof challenge proof = true ↔
      proof.chunkId = challenge.chunkId ∧ proof.leafIndices = challenge.leafIndices) ∧
    ¬ ∀ proof, ChallengeGenerator.verifyProof challenge proof = true →
      proof.Possesses hex blake3 challenge := by
  refine ⟨ChallengeGenerator.verifyProof_eq_true_iff challenge, fun hall => ?_⟩
  have hlen : (List.replicate (challenge.leafIndices.length + 1) ([] : Bytes)).length ≠
      challenge.leafIndices.length := by simp
  exact challenge.not_possesses_of_leaves hex blake3 hlen [] ""
    (hall _ (ChallengeGenerator.verifyProof_answer challenge _ _ _))

/-- A challenge of one leaf of a chunk. -/
def leafChallenge : StorageChallenge where
  chunkId := ChunkId.new singleBlake3 singleChunk
  leafIndices := [0]
  nonce := ⟨List.replicate nonceLen 0, by simp⟩
  timestamp := 0

/-- A host that has no data answers with the indices alone and is accepted. -/
theorem ChallengeGenerator.bare_answer_accepted :
    ¬ ∀ (challenge : StorageChallenge) (proof : StorageProof),
      ChallengeGenerator.verifyProof challenge proof = true →
        proof.Possesses HexCodec.lowercase singleBlake3 challenge := by
  intro hall
  have hnone : ([] : List Bytes).length ≠ leafChallenge.leafIndices.length := by decide
  exact leafChallenge.not_possesses_of_leaves _ _ hnone [] ""
    (hall leafChallenge _ (ChallengeGenerator.verifyProof_answer leafChallenge [] [] ""))

end VaultKeeper
