import VaultKeeper.PairTree
import VaultKeeper.Types

/-!
# Merkle Trees over Chunks

The tree, the prover and the verifier of `core/src/merkle.rs`. The builder's `while`
loop is the rounds of `PairTree` at the join `hashPair`, the prover's loop over
`self.layers` is `PairTree.path`, and the verifier's loop is `verifyLoop`, which reads
the hex of each sibling as it goes and is shown to be `PairTree.foldPath` on the
siblings that decode (`verifyLoop_eq`).

The prover walks through every layer it holds, the top layer included, where the only
node is its own sibling. A proof is therefore one level longer than the tree is high,
and the verifier ends at `hashPair root root`.

## Main results

* `MerkleTree.proof_eq_some`: a proof exists for every index below the leaf count, with
  no index out of bounds on the way.
* `MerkleTree.verifyProof_proof_iff`: the proof of a tree is accepted exactly when the
  root is the hash of itself written twice.
* `MerkleTree.verifyProof_proof_eq_false`: no proof the prover makes is ever accepted.
-/

namespace VaultKeeper

variable (hex : HexCodec) (blake3 : HashFn)

/-- The bytes an inner node hashes: left digest, then right digest. -/
def pairBytes (p : Hash × Hash) : Bytes :=
  p.1.bytes ++ p.2.bytes

/-- The digest of an inner node. -/
def hashPair (left right : Hash) : Hash :=
  blake3 (left.bytes ++ right.bytes)

theorem pairBytes_injective : Function.Injective pairBytes := by
  intro p q h
  obtain ⟨h₁, h₂⟩ := Hash.append_inj h
  exact Prod.ext h₁ h₂

theorem length_pairBytes (p : Hash × Hash) : (pairBytes p).length = 64 :=
  Hash.length_append p.1 p.2

/-- Every 64 bytes are a pair of digests. -/
theorem exists_pairBytes {b : Bytes} (h : b.length = 64) : ∃ p, b = pairBytes p := by
  refine ⟨(⟨b.take 32, by simp [h]⟩, ⟨b.drop 32, by simp [h]⟩), ?_⟩
  simp [pairBytes]

/-- A hash function without collisions on the bytes of some pairs joins them apart. -/
theorem hashPair_injOn {S : Set (Hash × Hash)}
    (h : Set.InjOn blake3 (Set.image pairBytes S)) :
    Set.InjOn (fun p : Hash × Hash => hashPair blake3 p.1 p.2) S := by
  intro p hp q hq hpq
  exact pairBytes_injective
    (h (Set.mem_image_of_mem _ hp) (Set.mem_image_of_mem _ hq) hpq)

/-- A Merkle tree built from data chunks. -/
structure MerkleTree where
  leaves : List Hash
  layers : List (List Hash)
  root : Hash

/-- A single node in a Merkle proof path. -/
structure MerkleProofNode where
  hash : String
  isRight : Bool

/-- A complete Merkle proof for a single leaf. -/
structure MerkleProof where
  leafIndex : ℕ
  leafHash : String
  siblings : List MerkleProofNode
  root : String

/-- The proof that claims a path of digests, written in hex. -/
def MerkleProof.ofPath (index : ℕ) (leaf : Hash) (path : List (Hash × Bool)) (root : Hash) :
    MerkleProof where
  leafIndex := index
  leafHash := hex.encode leaf.bytes
  siblings := path.map fun s => { hash := hex.encode s.1.bytes, isRight := s.2 }
  root := hex.encode root.bytes

/-- Build a Merkle tree from leaf hashes. No leaves give no layers and the hash of the
empty string as root. -/
def MerkleTree.fromHashes (leaves : List Hash) : MerkleTree :=
  if h : leaves = [] then
    { leaves := [], layers := [], root := blake3 [] }
  else
    { leaves := leaves
      layers := PairTree.layers (hashPair blake3) leaves
      root := PairTree.top (hashPair blake3) leaves h }

/-- Build a Merkle tree from data chunks. -/
def MerkleTree.fromChunks (chunks : List Bytes) : MerkleTree :=
  MerkleTree.fromHashes blake3 (chunks.map blake3)

/-- The Merkle proof of the leaf at `index`, from leaf to root. `none` is an index out of
range: of the leaves, and (a panic of the source) of a layer on the way up. -/
def MerkleTree.proof (t : MerkleTree) (index : ℕ) : Option MerkleProof :=
  if t.leaves.length ≤ index then none
  else do
    let siblings ← PairTree.path t.layers index
    let leaf ← t.leaves[index]?
    pure (MerkleProof.ofPath hex index leaf siblings t.root)

/-- The verifier's loop over the siblings, from the digest reached so far. -/
def verifyLoop (current : Hash) : List MerkleProofNode → Option Hash
  | [] => some current
  | sibling :: rest => do
      let siblingBytes ← decodeHash hex sibling.hash
      verifyLoop
        (if sibling.isRight then hashPair blake3 current siblingBytes
          else hashPair blake3 siblingBytes current) rest

/-- Verify a Merkle proof. -/
def MerkleTree.verifyProof (proof : MerkleProof) : Bool :=
  match decodeHash hex proof.leafHash with
  | none => false
  | some leaf =>
      match verifyLoop hex blake3 leaf proof.siblings with
      | none => false
      | some current =>
          match decodeHash hex proof.root with
          | none => false
          | some root => current == root

/-- The byte strings the verifier's loop hashes. -/
def verifyLoopInputs (current : Hash) : List MerkleProofNode → List Bytes
  | [] => []
  | sibling :: rest =>
      match decodeHash hex sibling.hash with
      | none => []
      | some siblingBytes =>
          let pair := if sibling.isRight then (current, siblingBytes)
            else (siblingBytes, current)
          pairBytes pair :: verifyLoopInputs (hashPair blake3 pair.1 pair.2) rest

/-- The byte strings `verifyProof` hashes. -/
def MerkleProof.inputs (proof : MerkleProof) : List Bytes :=
  match decodeHash hex proof.leafHash with
  | none => []
  | some leaf => verifyLoopInputs hex blake3 leaf proof.siblings

/-- The byte strings hashed in building the tree of some chunks. -/
def MerkleTree.inputs (chunks : List Bytes) : List Bytes :=
  chunks ++ (PairTree.joined (hashPair blake3) (chunks.map blake3)).map pairBytes

/-- The siblings of a proof, read from their hex text. -/
def decodePath : List MerkleProofNode → Option (List (Hash × Bool))
  | [] => some []
  | sibling :: rest => do
      let siblingBytes ← decodeHash hex sibling.hash
      let path ← decodePath rest
      pure ((siblingBytes, sibling.isRight) :: path)

/-! ### The verifier as a fold -/

/-- The verifier's loop reads all siblings and folds them into the leaf. -/
theorem verifyLoop_eq (current : Hash) (siblings : List MerkleProofNode) :
    verifyLoop hex blake3 current siblings =
      (decodePath hex siblings).map (PairTree.foldPath (hashPair blake3) current) := by
  induction siblings generalizing current with
  | nil => rfl
  | cons s rest ih =>
      simp only [verifyLoop, decodePath, Option.bind_eq_bind, ih]
      cases decodeHash hex s.hash with
      | none => rfl
      | some d =>
          cases decodePath hex rest with
          | none => rfl
          | some path => rfl

/-- The inputs of the verifier's loop are the pairs its fold joins. -/
theorem verifyLoopInputs_eq {siblings : List MerkleProofNode} {path : List (Hash × Bool)}
    (current : Hash) (h : decodePath hex siblings = some path) :
    verifyLoopInputs hex blake3 current siblings =
      (PairTree.foldPairs (hashPair blake3) current path).map pairBytes := by
  induction siblings generalizing current path with
  | nil =>
      obtain rfl : [] = path := Option.some.inj h
      rfl
  | cons s rest ih =>
      simp only [decodePath, Option.bind_eq_bind, Option.bind_eq_some_iff,
        Option.pure_def, Option.some.injEq] at h
      obtain ⟨d, hd, tail, htail, rfl⟩ := h
      simp only [verifyLoopInputs, hd, PairTree.foldPairs, PairTree.foldStep_eq,
        List.map_cons]
      rw [ih _ htail]
      rfl

/-- **The verifier's specification**: a proof is accepted exactly when its parts decode
and the fold of its path is its root. -/
theorem MerkleTree.verifyProof_eq_true_iff (proof : MerkleProof) :
    MerkleTree.verifyProof hex blake3 proof = true ↔
      ∃ leaf path, decodeHash hex proof.leafHash = some leaf ∧
        decodePath hex proof.siblings = some path ∧
        decodeHash hex proof.root =
          some (PairTree.foldPath (hashPair blake3) leaf path) := by
  rw [MerkleTree.verifyProof]
  cases decodeHash hex proof.leafHash with
  | none => simp
  | some leaf =>
      simp only [verifyLoop_eq]
      cases decodePath hex proof.siblings with
      | none => simp
      | some path =>
          cases decodeHash hex proof.root with
          | none => simp
          | some root =>
              simp only [Option.map_some, beq_iff_eq, Option.some.injEq]
              constructor
              · rintro rfl
                exact ⟨leaf, path, rfl, rfl, rfl⟩
              · rintro ⟨_, _, rfl, rfl, hroot⟩
                exact hroot.symm

/-- The hex of a path decodes to the path. -/
theorem decodePath_encode (path : List (Hash × Bool)) :
    decodePath hex (path.map fun s => { hash := hex.encode s.1.bytes, isRight := s.2 }) =
      some path := by
  induction path with
  | nil => rfl
  | cons s rest ih => simp [decodePath, ih]

/-- A proof written from digests is accepted exactly when its path folds to its root. -/
theorem MerkleTree.verifyProof_ofPath_iff (i : ℕ) (leaf : Hash) (path : List (Hash × Bool))
    (root : Hash) :
    MerkleTree.verifyProof hex blake3 (MerkleProof.ofPath hex i leaf path root) = true ↔
      PairTree.foldPath (hashPair blake3) leaf path = root := by
  simp only [MerkleTree.verifyProof_eq_true_iff, MerkleProof.ofPath, decodeHash_encode,
    decodePath_encode, Option.some.injEq]
  constructor
  · rintro ⟨_, _, rfl, rfl, hroot⟩
    exact hroot.symm
  · rintro rfl
    exact ⟨leaf, path, rfl, rfl, rfl⟩

/-- The inputs of a proof written from digests are the pairs of its walk. -/
theorem MerkleProof.inputs_ofPath (i : ℕ) (leaf : Hash) (path : List (Hash × Bool))
    (root : Hash) :
    (MerkleProof.ofPath hex i leaf path root).inputs hex blake3 =
      (PairTree.foldPairs (hashPair blake3) leaf path).map pairBytes := by
  simp only [MerkleProof.inputs, MerkleProof.ofPath, decodeHash_encode]
  exact verifyLoopInputs_eq hex blake3 leaf (decodePath_encode hex path)

/-! ### The prover -/

theorem MerkleTree.fromHashes_of_ne_nil {leaves : List Hash} (h : leaves ≠ []) :
    MerkleTree.fromHashes blake3 leaves =
      { leaves := leaves
        layers := PairTree.layers (hashPair blake3) leaves
        root := PairTree.top (hashPair blake3) leaves h } := by
  rw [MerkleTree.fromHashes, dif_neg h]

/-- The root of the tree of some chunks is the top of their digests. -/
theorem MerkleTree.root_fromChunks {chunks : List Bytes} (h : chunks.map blake3 ≠ []) :
    (MerkleTree.fromChunks blake3 chunks).root =
      PairTree.top (hashPair blake3) (chunks.map blake3) h := by
  rw [MerkleTree.fromChunks, MerkleTree.fromHashes_of_ne_nil blake3 h]

/-- **The prover's specification**: below the leaf count a proof exists, its leaf and
root are the tree's, and its path folds to the join of the root with itself. -/
theorem MerkleTree.proof_eq_some {chunks : List Bytes} {i : ℕ} {c : Bytes}
    (hc : chunks[i]? = some c) :
    ∃ path : List (Hash × Bool),
      (MerkleTree.fromChunks blake3 chunks).proof hex i = some
        (MerkleProof.ofPath hex i (blake3 c) path
          (MerkleTree.fromChunks blake3 chunks).root) ∧
      PairTree.foldPath (hashPair blake3) (blake3 c) path =
        hashPair blake3 (MerkleTree.fromChunks blake3 chunks).root
          (MerkleTree.fromChunks blake3 chunks).root := by
  have hleaf : (chunks.map blake3)[i]? = some (blake3 c) := by simp [hc]
  have hne : chunks.map blake3 ≠ [] := by
    intro hnil
    simp [hnil] at hleaf
  have hi : ¬ (chunks.map blake3).length ≤ i := by
    intro hle
    rw [List.getElem?_eq_none hle] at hleaf
    cases hleaf
  obtain ⟨path, hpath, hfold⟩ :=
    PairTree.foldPath_path_layers (hashPair blake3) hne hleaf
  refine ⟨path, ?_, ?_⟩
  · simp only [MerkleTree.fromChunks, MerkleTree.fromHashes_of_ne_nil blake3 hne,
      MerkleTree.proof, if_neg hi, hpath, hleaf]
    rfl
  · rw [MerkleTree.root_fromChunks blake3 hne]
    exact hfold

/-- A proof of a tree is accepted exactly when the root is the hash of itself written
twice: the walk goes one level past the root. -/
theorem MerkleTree.verifyProof_proof_iff (chunks : List Bytes) (i : ℕ)
    (hi : i < chunks.length) :
    ∃ p, (MerkleTree.fromChunks blake3 chunks).proof hex i = some p ∧
      (MerkleTree.verifyProof hex blake3 p = true ↔
        hashPair blake3 (MerkleTree.fromChunks blake3 chunks).root
          (MerkleTree.fromChunks blake3 chunks).root =
          (MerkleTree.fromChunks blake3 chunks).root) := by
  obtain ⟨path, hproof, hfold⟩ :=
    MerkleTree.proof_eq_some hex blake3 (List.getElem?_eq_getElem hi)
  refine ⟨_, hproof, ?_⟩
  rw [MerkleTree.verifyProof_ofPath_iff, hfold]

/-- The verifier refuses the proof of every index, under a hash function that hashes no
digest to itself. -/
theorem MerkleTree.exists_refused_proof (hself : NoSelfHash blake3) (chunks : List Bytes)
    (i : ℕ) (hi : i < chunks.length) :
    ∃ p, (MerkleTree.fromChunks blake3 chunks).proof hex i = some p ∧
      MerkleTree.verifyProof hex blake3 p = false := by
  obtain ⟨p, hp, hiff⟩ := MerkleTree.verifyProof_proof_iff hex blake3 chunks i hi
  refine ⟨p, hp, ?_⟩
  rw [Bool.eq_false_iff]
  intro hv
  exact hself _ (hiff.mp hv)

/-- **No proof verifies.** For every list of chunks and every index below its length the
proof of the tree exists and the verifier refuses it. -/
theorem MerkleTree.verifyProof_proof_eq_false (hself : NoSelfHash blake3)
    (chunks : List Bytes) (i : ℕ) (hi : i < chunks.length) :
    ¬ ∃ p, (MerkleTree.fromChunks blake3 chunks).proof hex i = some p ∧
      MerkleTree.verifyProof hex blake3 p = true := by
  rintro ⟨p, hp, hv⟩
  obtain ⟨q, hq, hrefused⟩ := MerkleTree.exists_refused_proof hex blake3 hself chunks i hi
  obtain rfl : p = q := Option.some.inj (hp.symm.trans hq)
  rw [hv] at hrefused
  cases hrefused

/-- The chunk `b"single"`. -/
def singleChunk : Bytes := [115, 105, 110, 103, 108, 101]

/-- The digest of `singleChunk`, the leaf and the root of its tree. -/
def singleDigest : Hash where
  bytes := [120, 21, 3, 140, 45, 40, 241, 253, 157, 100, 10, 46, 82, 1, 190, 184,
    107, 46, 176, 123, 41, 91, 61, 109, 23, 65, 79, 80, 3, 202, 175, 234]
  size := rfl

/-- `blake3` on `singleChunk` and on its digest written twice. -/
def singleBlake3 : HashFn :=
  tabulated
    [(singleChunk, singleDigest),
      (singleDigest.bytes ++ singleDigest.bytes,
        { bytes := [78, 155, 188, 211, 55, 227, 200, 251, 147, 113, 178, 126, 146, 195, 53, 241,
            210, 75, 116, 22, 33, 251, 102, 26, 19, 112, 216, 89, 155, 223, 140, 4]
          size := rfl })]

theorem singleBlake3_noSelfHash : NoSelfHash singleBlake3 :=
  tabulated_noSelfHash (by decide)

theorem MerkleTree.verifyProof_proof_eq_false_single :
    ¬ ∃ p, (MerkleTree.fromChunks singleBlake3 [singleChunk]).proof HexCodec.lowercase 0 =
        some p ∧ MerkleTree.verifyProof HexCodec.lowercase singleBlake3 p = true :=
  MerkleTree.verifyProof_proof_eq_false HexCodec.lowercase singleBlake3
    singleBlake3_noSelfHash [singleChunk] 0 (by decide)

/-- The prover's proof of the only leaf of a one-chunk tree is refused. -/
theorem MerkleTree.single_proof_refused :
    NoSelfHash singleBlake3 ∧
      ¬ ∀ i < [singleChunk].length,
        ∃ p, (MerkleTree.fromChunks singleBlake3 [singleChunk]).proof HexCodec.lowercase i =
            some p ∧
          MerkleTree.verifyProof HexCodec.lowercase singleBlake3 p = true := by
  refine ⟨singleBlake3_noSelfHash, fun hall => ?_⟩
  obtain ⟨p, hp, hv⟩ := hall 0 (by decide)
  obtain ⟨q, hq, hiff⟩ := MerkleTree.verifyProof_proof_iff HexCodec.lowercase singleBlake3
    [singleChunk] 0 (by decide)
  obtain rfl : p = q := Option.some.inj (hp.symm.trans hq)
  exact singleBlake3_noSelfHash _ (hiff.mp hv)

end VaultKeeper
