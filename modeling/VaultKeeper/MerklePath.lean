import VaultKeeper.MerkleSoundness

/-!
# Paths through a Merkle Tree

The two loops of `core/src/merkle.rs` that go from a leaf to the root. `MerkleTree::proof`
carries an index and the siblings found so far, and halves the index at each layer; its
panics, an index below zero or out of a layer, are the `none` of `proofStep`.
`MerkleTree::verify_proof` hashes its way up along whatever siblings it is given.

## Main results

* `MerkleTree.proof_eq_loop`: `MerkleTree.proof` is this loop.
* `proofStep_of_getElem?`: at a node of a layer the loop takes the sibling that hashes with
  it to its parent.
* `proofLoop_take`: before layer `k` the index has been halved `k` times.
* `MerkleTree.proof_climbs`: the two together, with the shape of the layers.
* `MerkleTree.verifyProof_binding`: what two accepted proofs for one root agree on.
-/

namespace VaultKeeper

variable (hex : HexCodec) (blake3 : HashFn)

/-- What the prover carries from layer to layer. -/
structure ProofState where
  idx : ℕ
  siblings : List MerkleProofNode

/-- The sibling of a node as the proof holds it. -/
def siblingNode (idx : ℕ) (sibling : Hash) : MerkleProofNode where
  hash := hex.encode sibling.bytes
  isRight := idx % 2 == 0

/-- The index of the sibling of a node. -/
def siblingIdx (idx : ℕ) : Option ℕ :=
  if idx % 2 = 0 then some (idx + 1)
  else if 1 ≤ idx then some (idx - 1)
  else none

/-- One layer of the prover's loop. -/
def proofStep (state : ProofState) (layer : List Hash) : Option ProofState :=
  (siblingIdx state.idx).bind fun neighbour =>
    (if neighbour < layer.length then layer[neighbour]? else layer[state.idx]?).map fun sibling =>
      { idx := state.idx / 2
        siblings := state.siblings ++ [siblingNode hex state.idx sibling] }

/-- The prover's loop over some layers. -/
def proofLoop (layers : List (List Hash)) (index : ℕ) : Option ProofState :=
  layers.foldlM (proofStep hex) { idx := index, siblings := [] }

/-! ### The prover's loop -/

theorem proofStep_eq (state : ProofState) (layer : List Hash) :
    proofStep hex state layer = (PairTree.sibling layer state.idx).map fun sibling =>
      { idx := state.idx / 2
        siblings := state.siblings ++ [siblingNode hex state.idx sibling] } := by
  have hidx : siblingIdx state.idx =
      some (if state.idx % 2 = 0 then state.idx + 1 else state.idx - 1) := by
    rw [siblingIdx]
    by_cases heven : state.idx % 2 = 0
    · rw [if_pos heven, if_pos heven]
    · rw [if_neg heven, if_neg heven, if_pos (by omega)]
  rw [proofStep, hidx, Option.bind_some, PairTree.sibling]

/-- The loop adds the path through the layers to the siblings it has. -/
theorem foldlM_proofStep (layers : List (List Hash)) (state : ProofState) :
    layers.foldlM (proofStep hex) state = (PairTree.path layers state.idx).map fun path =>
      { idx := state.idx / 2 ^ layers.length
        siblings := state.siblings ++
          path.map fun s => { hash := hex.encode s.1.bytes, isRight := s.2 } } := by
  induction layers generalizing state with
  | nil => simp [PairTree.path]
  | cons layer rest ih =>
      rw [List.foldlM_cons, proofStep_eq, PairTree.path]
      cases PairTree.sibling layer state.idx with
      | none => rfl
      | some sibling =>
          simp only [Option.map_some, Option.bind_eq_bind, Option.bind_some, ih]
          cases PairTree.path rest (state.idx / 2) with
          | none => rfl
          | some path =>
              simp [siblingNode, Nat.div_div_eq_div_mul, pow_succ']

/-- **The prover is its loop**: the proof holds what the loop over all layers has found. -/
theorem MerkleTree.proof_eq_loop (t : MerkleTree) (index : ℕ) :
    t.proof hex index =
      if t.leaves.length ≤ index then none
      else
        (proofLoop hex t.layers index).bind fun state =>
          t.leaves[index]?.map fun leaf =>
            { leafIndex := index
              leafHash := hex.encode leaf.bytes
              siblings := state.siblings
              root := hex.encode t.root.bytes } := by
  rw [MerkleTree.proof, proofLoop, foldlM_proofStep]
  cases PairTree.path t.layers index with
  | none => rfl
  | some path =>
      cases t.leaves[index]? <;> rfl

/-- **One layer up**: at a node of a layer the loop does not panic, and the sibling it takes
hashes with the node, in the order it notes, to the parent in the next round. -/
theorem proofStep_of_getElem? {state : ProofState} {layer : List Hash} {node : Hash}
    (h : layer[state.idx]? = some node) :
    ∃ sibling,
      proofStep hex state layer = some
        { idx := state.idx / 2
          siblings := state.siblings ++ [siblingNode hex state.idx sibling] } ∧
      (PairTree.pairUp (hashPair blake3) layer)[state.idx / 2]? =
        some (if (siblingNode hex state.idx sibling).isRight then hashPair blake3 node sibling
          else hashPair blake3 sibling node) := by
  obtain ⟨sibling, hsibling, hparent⟩ := PairTree.sibling_spec (hashPair blake3) h
  exact ⟨sibling, by rw [proofStep_eq, hsibling, Option.map_some], hparent⟩

/-- A halved index stays below the halved and rounded-up length. -/
theorem div_two_pow_lt {i n : ℕ} (h : i < n) (k : ℕ) : i / 2 ^ k < (n + 2 ^ k - 1) / 2 ^ k := by
  have hpos : 0 < 2 ^ k := Nat.two_pow_pos k
  rw [Nat.lt_iff_add_one_le, ← Nat.add_div_right _ hpos]
  exact Nat.div_le_div_right (by omega)

/-- The node of layer `k` above a leaf. -/
theorem exists_getElem?_iterate {leaves : List Hash} {index : ℕ} (hi : index < leaves.length)
    (k : ℕ) :
    ∃ node, ((PairTree.pairUp (hashPair blake3))^[k] leaves)[index / 2 ^ k]? = some node := by
  refine ⟨_, List.getElem?_eq_getElem ?_⟩
  rw [PairTree.length_iterate_pairUp]
  exact div_two_pow_lt hi k

/-- **The index of the loop**: it comes to each layer, with the index halved as often as there
are layers below. Induction on the layers passed. -/
theorem proofLoop_take {leaves : List Hash} {index : ℕ} (hi : index < leaves.length) {k : ℕ}
    (hk : k ≤ (PairTree.layers (hashPair blake3) leaves).length) :
    ∃ state, proofLoop hex ((PairTree.layers (hashPair blake3) leaves).take k) index =
        some state ∧
      state.idx = index / 2 ^ k := by
  induction k with
  | zero => exact ⟨_, rfl, by simp⟩
  | succ k ih =>
      obtain ⟨state, hstate, hidx⟩ := ih (by omega)
      have hlayer := @PairTree.getElem?_layers _ (hashPair blake3) leaves k (by omega)
      obtain ⟨node, hnode⟩ := exists_getElem?_iterate blake3 hi k
      rw [← hidx] at hnode
      obtain ⟨sibling, hstep, -⟩ := proofStep_of_getElem? hex blake3 hnode
      refine ⟨{ idx := state.idx / 2
                siblings := state.siblings ++ [siblingNode hex state.idx sibling] }, ?_, ?_⟩
      · rw [proofLoop] at hstate
        rw [List.take_add_one, hlayer, Option.toList_some, proofLoop, List.foldlM_append, hstate]
        simp only [Option.bind_eq_bind, Option.bind_some, List.foldlM_cons, List.foldlM_nil, hstep]
        rfl
      · rw [hidx, Nat.div_div_eq_div_mul, pow_succ]

/-- **Each step climbs one layer.** For every index below the number of leaves, and every layer:
the layer has as many nodes as the leaves divided by the power of two, rounded up; the loop comes
to it with the index divided by that power, which is below its length, and does not subtract from
zero; and the sibling it notes hashes with the node there, in the order it notes, to the node of
the next layer at half the index. The last layer is the root alone. -/
theorem MerkleTree.proof_climbs (hex : HexCodec) (blake3 : HashFn) (leaves : List Hash)
    (index : ℕ) (hi : index < leaves.length) :
    (∀ (k : ℕ) (layer : List Hash), (MerkleTree.fromHashes blake3 leaves).layers[k]? = some layer →
      layer.length = (leaves.length + 2 ^ k - 1) / 2 ^ k ∧
      ∃ state node sibling,
        proofLoop hex ((MerkleTree.fromHashes blake3 leaves).layers.take k) index = some state ∧
        state.idx = index / 2 ^ k ∧ state.idx < layer.length ∧
        (state.idx % 2 ≠ 0 → 1 ≤ state.idx) ∧
        layer[state.idx]? = some node ∧
        proofStep hex state layer = some
          { idx := state.idx / 2
            siblings := state.siblings ++ [siblingNode hex state.idx sibling] } ∧
        ∀ above, (MerkleTree.fromHashes blake3 leaves).layers[k + 1]? = some above →
          above[state.idx / 2]? =
            some (if (siblingNode hex state.idx sibling).isRight then hashPair blake3 node sibling
              else hashPair blake3 sibling node)) ∧
    (MerkleTree.fromHashes blake3 leaves).layers.getLast? =
      some [(MerkleTree.fromHashes blake3 leaves).root] := by
  have hne : leaves ≠ [] := by
    rintro rfl
    simp at hi
  rw [MerkleTree.fromHashes_of_ne_nil blake3 hne]
  refine ⟨fun k layer hlayer => ?_, PairTree.getLast?_layers (hashPair blake3) hne⟩
  have hk := (List.getElem?_eq_some_iff.mp hlayer).1
  obtain rfl : (PairTree.pairUp (hashPair blake3))^[k] leaves = layer :=
    Option.some.inj ((PairTree.getElem?_layers (hashPair blake3) hk).symm.trans hlayer)
  obtain ⟨state, hstate, hidx⟩ := proofLoop_take hex blake3 hi hk.le
  obtain ⟨node, hnode⟩ := exists_getElem?_iterate blake3 hi k
  rw [← hidx] at hnode
  obtain ⟨sibling, hstep, hparent⟩ := proofStep_of_getElem? hex blake3 hnode
  refine ⟨PairTree.length_iterate_pairUp (hashPair blake3) leaves k, state, node, sibling, hstate,
    hidx, (List.getElem?_eq_some_iff.mp hnode).1, by omega, hnode, hstep, fun above habove => ?_⟩
  have hk' := (List.getElem?_eq_some_iff.mp habove).1
  have heq := (PairTree.getElem?_layers (hashPair blake3) hk').symm.trans habove
  rw [Function.iterate_succ_apply'] at heq
  rw [← Option.some.inj heq]
  exact hparent

theorem MerkleTree.proof_climbs_three :
    ∃ state, proofLoop HexCodec.lowercase
        ((MerkleTree.fromHashes blake3AB [digestA, digestB, rootAB]).layers.take 1) 2 =
        some state ∧
      state.idx = 1 := by
  obtain ⟨-, state, node, sibling, hstate, hidx, -⟩ :=
    (MerkleTree.proof_climbs HexCodec.lowercase blake3AB [digestA, digestB, rootAB] 2
      (by decide)).1 1 [rootAB, hashPair blake3AB rootAB rootAB] (by decide)
  exact ⟨state, hstate, hidx⟩

/-! ### Two accepted proofs -/

variable {hex}

/-- The texts of a path that decodes, and its flags. -/
theorem map_decode_of_decodePath {siblings : List MerkleProofNode} {path : List (Hash × Bool)}
    (h : decodePath hex siblings = some path) :
    siblings.map (fun s => hex.decode s.hash) = path.map (fun s => some s.1.bytes) ∧
      siblings.map MerkleProofNode.isRight = path.map Prod.snd := by
  induction siblings generalizing path with
  | nil =>
      obtain rfl : [] = path := Option.some.inj h
      exact ⟨rfl, rfl⟩
  | cons s rest ih =>
      simp only [decodePath, Option.bind_eq_bind, Option.bind_eq_some_iff,
        Option.pure_def, Option.some.injEq] at h
      obtain ⟨d, hd, tail, htail, rfl⟩ := h
      obtain ⟨hbytes, hflags⟩ := ih htail
      simp [decode_of_decodeHash hd, hbytes, hflags]

/-- **Binding of paths**: two accepted proofs whose roots decode alike and whose siblings stand
on the same sides have leaves and siblings that decode alike, or the verifier hashes 64 bytes of
one and 64 other bytes of the other to one digest. -/
theorem MerkleTree.verifyProof_binding (hex : HexCodec) (blake3 : HashFn) (p q : MerkleProof)
    (hp : MerkleTree.verifyProof hex blake3 p = true)
    (hq : MerkleTree.verifyProof hex blake3 q = true)
    (hroot : hex.decode p.root = hex.decode q.root)
    (hflags : p.siblings.map MerkleProofNode.isRight = q.siblings.map MerkleProofNode.isRight) :
    (hex.decode p.leafHash = hex.decode q.leafHash ∧
      p.siblings.map (fun s => hex.decode s.hash) =
        q.siblings.map (fun s => hex.decode s.hash)) ∨
    ∃ b ∈ p.inputs hex blake3, ∃ c ∈ q.inputs hex blake3,
      b.length = 64 ∧ c.length = 64 ∧ b ≠ c ∧ blake3 b = blake3 c := by
  obtain ⟨leaf, path, hleaf, hpath, hfold⟩ :=
    (MerkleTree.verifyProof_eq_true_iff hex blake3 p).mp hp
  obtain ⟨leaf', path', hleaf', hpath', hfold'⟩ :=
    (MerkleTree.verifyProof_eq_true_iff hex blake3 q).mp hq
  obtain ⟨hbytes, hsides⟩ := map_decode_of_decodePath hpath
  obtain ⟨hbytes', hsides'⟩ := map_decode_of_decodePath hpath'
  have htop : PairTree.foldPath (hashPair blake3) leaf path =
      PairTree.foldPath (hashPair blake3) leaf' path' := by
    rw [decode_of_decodeHash hfold, decode_of_decodeHash hfold', Option.some.injEq] at hroot
    exact Hash.ext hroot
  rcases PairTree.foldPath_binding (hashPair blake3) (hsides.symm.trans (hflags.trans hsides'))
    htop with ⟨rfl, rfl⟩ | ⟨a, ha, b, hb, hne, hhash⟩
  · left
    rw [decode_of_decodeHash hleaf, decode_of_decodeHash hleaf', hbytes, hbytes']
    exact ⟨rfl, rfl⟩
  · right
    exact ⟨pairBytes a, MerkleProof.pairBytes_mem_inputs hleaf hpath ha, pairBytes b,
      MerkleProof.pairBytes_mem_inputs hleaf' hpath' hb, length_pairBytes a, length_pairBytes b,
      fun heq => hne (pairBytes_injective heq), hhash⟩

/-- The proof of the first leaf of the tree over `b"a"` and `b"b"`, filed under an index. -/
def proofAB (index : ℕ) : MerkleProof :=
  MerkleProof.ofPath HexCodec.lowercase index digestA [(digestB, true)] rootAB

theorem verifyProof_proofAB (index : ℕ) :
    MerkleTree.verifyProof HexCodec.lowercase blake3AB (proofAB index) = true :=
  (MerkleTree.verifyProof_ofPath_iff _ _ index digestA [(digestB, true)] rootAB).mpr (by decide)

theorem MerkleTree.verifyProof_binding_AB :
    (HexCodec.lowercase.decode (proofAB 0).leafHash =
        HexCodec.lowercase.decode (proofAB 1).leafHash ∧
      (proofAB 0).siblings.map (fun s => HexCodec.lowercase.decode s.hash) =
        (proofAB 1).siblings.map (fun s => HexCodec.lowercase.decode s.hash)) ∨
    ∃ b ∈ (proofAB 0).inputs HexCodec.lowercase blake3AB,
      ∃ c ∈ (proofAB 1).inputs HexCodec.lowercase blake3AB,
        b.length = 64 ∧ c.length = 64 ∧ b ≠ c ∧ blake3AB b = blake3AB c :=
  MerkleTree.verifyProof_binding HexCodec.lowercase blake3AB (proofAB 0) (proofAB 1)
    (verifyProof_proofAB 0) (verifyProof_proofAB 1) rfl rfl

end VaultKeeper
