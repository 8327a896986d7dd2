import VaultKeeper.Chunking
import VaultKeeper.Encryption

/-!
# A File and its Shards

The way of a file through `core/src` and back. `chunking.rs` cuts it, `encryption.rs` encrypts
each chunk under a nonce of its own, and `erasure.rs` encodes each ciphertext into shards, of
which any three are found again. The decoder returns ciphertexts with their padding. Cut to
their lengths, as the tests cut what it returns, they give back the file; but the lengths are
not in the shards, and without them a file comes back only when it is a single chunk that is
not full and whose ciphertext needs no padding.

## Main results

* `KeptChunk.Keeps.opened_cut`, `KeptChunk.Keeps.length_opened`: what a chunk comes back as,
  with and without the length of its ciphertext.
* `file_comes_back`: what a whole file comes back as.
-/

namespace VaultKeeper

/-- What there is of a chunk: its nonce and its ciphertext, the shards of the ciphertext, and
those that are found again, with their indices. -/
structure KeptChunk where
  nonce : Nonce
  ciphertext : Bytes
  shards : List Bytes
  selection : List (ℕ × Bytes)

variable {aead : Aead} {rs : ReedSolomon} {key : DerivedKey}

/-- The chunk was encrypted and encoded, and three of its shards are found. -/
structure KeptChunk.Keeps (aead : Aead) (rs : ReedSolomon) (key : DerivedKey) (chunk : Bytes)
    (k : KeptChunk) : Prop where
  encrypted : ∃ nonce, Encryption.encrypt aead nonce key chunk = .ok (k.nonce, k.ciphertext)
  encoded : Erasure.encode rs k.ciphertext = .ok k.shards
  selected : Erasure.SelectedFrom k.shards k.selection
  three : rsDataShards ≤ (k.selection.map Prod.fst).dedup.length

/-- Decode a chunk, make of the result what the caller makes of it, and decrypt. -/
def KeptChunk.opened (aead : Aead) (rs : ReedSolomon) (key : DerivedKey)
    (trim : KeptChunk → Bytes → Bytes) (k : KeptChunk) : Option Bytes := do
  let recovered ← (Erasure.reconstruct rs k.selection).toOption
  (Encryption.decrypt aead key k.nonce (trim k recovered)).toOption

/-- Open all chunks of a file, and assemble them. -/
def reassembled (aead : Aead) (rs : ReedSolomon) (key : DerivedKey)
    (trim : KeptChunk → Bytes → Bytes) (kept : List KeptChunk) : Option Bytes :=
  (kept.mapM (KeptChunk.opened aead rs key trim)).map assembleChunks

/-- Cut what was decoded to the length of the ciphertext. -/
def KeptChunk.cut (k : KeptChunk) (recovered : Bytes) : Bytes :=
  recovered.take k.ciphertext.length

/-- Take what was decoded as it is. -/
def KeptChunk.whole (_ : KeptChunk) (recovered : Bytes) : Bytes :=
  recovered

/-! ### One chunk -/

section Chunk

variable {chunk : Bytes} {k : KeptChunk}

theorem KeptChunk.Keeps.aead_encrypt (h : k.Keeps aead rs key chunk) :
    aead.encrypt key k.nonce chunk = some k.ciphertext := by
  obtain ⟨nonce, henc⟩ := h.encrypted
  obtain ⟨hnonce, hciphertext⟩ := Encryption.encrypt_eq_ok.mp henc
  rw [hnonce, hciphertext]

theorem KeptChunk.Keeps.length_ciphertext (haead : aead.Documented)
    (h : k.Keeps aead rs key chunk) : k.ciphertext.length = chunk.length + tagLen :=
  haead.length_encrypt _ _ _ _ h.aead_encrypt

/-- What is decoded is the ciphertext with its padding. -/
theorem KeptChunk.Keeps.reconstruct (haead : aead.Documented) (hrs : rs.Documented)
    (h : k.Keeps aead rs key chunk) :
    Erasure.reconstruct rs k.selection =
      .ok (k.ciphertext ++ Erasure.padding k.ciphertext.length) := by
  have hne : k.ciphertext ≠ [] := by
    refine List.ne_nil_of_length_pos ?_
    rw [h.length_ciphertext haead, tagLen]
    omega
  obtain ⟨shards, hshards, hrec⟩ := Erasure.reconstruct_encode hrs hne
  obtain rfl := Except.ok.inj (hshards.symm.trans h.encoded)
  exact hrec k.selection h.selected h.three

theorem KeptChunk.Keeps.opened_eq_some_iff (haead : aead.Documented) (hrs : rs.Documented)
    (h : k.Keeps aead rs key chunk) (trim : KeptChunk → Bytes → Bytes) (p : Bytes) :
    k.opened aead rs key trim = some p ↔
      aead.encrypt key k.nonce p =
        some (trim k (k.ciphertext ++ Erasure.padding k.ciphertext.length)) := by
  rw [opened, h.reconstruct haead hrs, ← haead.decrypt_iff, ← Encryption.decrypt_eq_ok]
  change (Encryption.decrypt aead key k.nonce
    (trim k (k.ciphertext ++ Erasure.padding k.ciphertext.length))).toOption = some p ↔ _
  generalize Encryption.decrypt aead key k.nonce
    (trim k (k.ciphertext ++ Erasure.padding k.ciphertext.length)) = result
  cases result with
  | error e =>
      refine iff_of_false (Option.some_ne_none p).symm ?_
      rintro ⟨⟩
  | ok q =>
      exact ⟨fun heq => congrArg Except.ok (Option.some.inj heq), fun heq =>
        congrArg some (Except.ok.inj heq)⟩

/-- Cut to the length of its ciphertext, a chunk comes back. -/
theorem KeptChunk.Keeps.opened_cut (haead : aead.Documented) (hrs : rs.Documented)
    (h : k.Keeps aead rs key chunk) : k.opened aead rs key cut = some chunk := by
  rw [h.opened_eq_some_iff haead hrs, cut, List.take_left]
  exact h.aead_encrypt

/-- What comes back as a whole is as much longer as there is padding. -/
theorem KeptChunk.Keeps.length_opened (haead : aead.Documented) (hrs : rs.Documented)
    (h : k.Keeps aead rs key chunk) {p : Bytes} (hp : k.opened aead rs key whole = some p) :
    p.length = chunk.length + (Erasure.padding (chunk.length + tagLen)).length := by
  rw [h.opened_eq_some_iff haead hrs, whole] at hp
  have hlength := haead.length_encrypt _ _ _ _ hp
  rw [List.length_append, h.length_ciphertext haead] at hlength
  omega

/-- So a chunk comes back as a whole when there is none. -/
theorem KeptChunk.Keeps.opened_whole (haead : aead.Documented) (hrs : rs.Documented)
    (h : k.Keeps aead rs key chunk) (hthree : (chunk.length + tagLen) % 3 = 0) :
    k.opened aead rs key whole = some chunk := by
  rw [← h.length_ciphertext haead] at hthree
  rw [h.opened_eq_some_iff haead hrs, whole, (Erasure.append_padding_eq_self _).mpr hthree]
  exact h.aead_encrypt

end Chunk

/-! ### The file -/

theorem mapM_eq_some_iff {α β : Type*} {f : α → Option β} {l : List α} {r : List β} :
    l.mapM f = some r ↔ List.Forall₂ (fun a b => f a = some b) l r := by
  induction l generalizing r with
  | nil => simp [eq_comm]
  | cons a l ih =>
      rw [List.mapM_cons]
      simp only [Option.bind_eq_bind, Option.bind_eq_some_iff, Option.pure_def, Option.some.injEq,
        ih]
      constructor
      · rintro ⟨b, hb, bs, hbs, rfl⟩
        exact .cons hb hbs
      · rintro (_ | ⟨hb, hbs⟩)
        exact ⟨_, hb, _, hbs, rfl⟩

theorem assembleChunks_eq_flatten (chunks : List Bytes) :
    assembleChunks chunks = chunks.flatten := by
  rw [assembleChunks, List.foldl_append_eq_append, List.nil_append, List.map_id']

theorem assembleChunks_chunkData (data : Bytes) : assembleChunks (chunkData data) = data := by
  rw [chunkData_eq, assembleChunks_eq, Equiv.symm_apply_apply]

/-- When each chunk comes back, so does the file. -/
theorem reassembled_of_opened {data : Bytes} {kept : List KeptChunk}
    (hkept : List.Forall₂ (KeptChunk.Keeps aead rs key) (chunkData data) kept)
    {trim : KeptChunk → Bytes → Bytes}
    (hopen : ∀ chunk ∈ chunkData data, ∀ k : KeptChunk, k.Keeps aead rs key chunk →
      k.opened aead rs key trim = some chunk) :
    reassembled aead rs key trim kept = some data := by
  have hopened : List.Forall₂ (fun k chunk => KeptChunk.opened aead rs key trim k = some chunk)
      kept (chunkData data) := by
    generalize chunkData data = chunks at hkept hopen
    induction hkept with
    | nil => exact .nil
    | cons h _ ih =>
        rw [List.forall_mem_cons] at hopen
        exact .cons (hopen.1 _ h) (ih hopen.2)
  rw [reassembled, mapM_eq_some_iff.mpr hopened, Option.map_some, assembleChunks_chunkData]

/-- The chunks that come back as a whole are together longer than the file, unless no
ciphertext needs padding. -/
theorem length_reassembled (haead : aead.Documented) (hrs : rs.Documented) {chunks : List Bytes}
    {kept : List KeptChunk} (hkept : List.Forall₂ (KeptChunk.Keeps aead rs key) chunks kept)
    {opened : List Bytes}
    (hopened : List.Forall₂ (fun k p => KeptChunk.opened aead rs key KeptChunk.whole k = some p)
      kept opened) :
    chunks.flatten.length ≤ opened.flatten.length ∧
      (opened.flatten.length = chunks.flatten.length →
        ∀ chunk ∈ chunks, (chunk.length + tagLen) % 3 = 0) := by
  induction hkept generalizing opened with
  | nil =>
      cases hopened
      simp
  | @cons chunk k chunks kept h hkept ih =>
      cases hopened with
      | @cons _ p _ opened hp hopened =>
          obtain ⟨hle, hall⟩ := ih hopened
          have hlength := h.length_opened haead hrs hp
          rw [Erasure.padding, List.length_replicate] at hlength
          rw [List.flatten_cons, List.flatten_cons, List.length_append, List.length_append,
            List.forall_mem_cons]
          refine ⟨by omega, fun heq => ⟨by omega, hall (by omega)⟩⟩

/-- A chunk that is full needs padding. -/
theorem chunks_unpadded_iff (data : Bytes) :
    (∀ chunk ∈ chunkData data, (chunk.length + tagLen) % 3 = 0) ↔
      data = [] ∨ data.length < chunkSize ∧ (data.length + tagLen) % 3 = 0 := by
  have hcut : chunkData data = Chunks.cut chunkSize data := chunkData_eq data
  rw [hcut]
  rcases eq_or_ne data [] with rfl | hne
  · simp
  · rw [or_iff_right hne]
    by_cases hfull : data.length < chunkSize
    · rw [Chunks.cut_of_length_le chunkSize_pos (List.length_pos_iff.mpr hne) hfull.le,
        List.forall_mem_singleton]
      exact (and_iff_right hfull).symm
    · rw [Chunks.cut_of_ne_nil chunkSize_pos hne, List.forall_mem_cons]
      refine iff_of_false (fun h => ?_) fun h => hfull h.1
      have hfirst := h.1
      rw [List.length_take, Nat.min_eq_left (not_lt.mp hfull), chunkSize, tagLen] at hfirst
      omega

/-- **A file comes back** from any three shards of each of its chunks, when what is decoded is
cut to the lengths of the ciphertexts. Without these lengths it comes back exactly when it is
empty, or a single chunk that is not full and whose ciphertext is a multiple of three long. -/
theorem file_comes_back (haead : aead.Documented) (hrs : rs.Documented) {data : Bytes}
    {kept : List KeptChunk}
    (hkept : List.Forall₂ (KeptChunk.Keeps aead rs key) (chunkData data) kept) :
    reassembled aead rs key KeptChunk.cut kept = some data ∧
      (reassembled aead rs key KeptChunk.whole kept = some data ↔
        data = [] ∨ data.length < chunkSize ∧ (data.length + tagLen) % 3 = 0) := by
  refine ⟨reassembled_of_opened hkept fun chunk _ k h => h.opened_cut haead hrs, ?_⟩
  rw [← chunks_unpadded_iff]
  constructor
  · intro hwhole
    obtain ⟨opened, hopened, hdata⟩ := Option.map_eq_some_iff.mp hwhole
    refine (length_reassembled haead hrs hkept (mapM_eq_some_iff.mp hopened)).2 ?_
    rw [← assembleChunks_eq_flatten, hdata, ← assembleChunks_eq_flatten, assembleChunks_chunkData]
  · exact fun hthree => reassembled_of_opened hkept fun chunk hmem k h =>
      h.opened_whole haead hrs (hthree chunk hmem)

/-- What is kept of the text `Hi` under the test key and nonce. -/
def keptHi : KeptChunk where
  nonce := testNonce
  ciphertext := hiCiphertext
  shards := Encryption.hiShards
  selection := [(2, [128, 9, 194, 128, 75, 222]), (0, [196, 149, 130, 226, 41, 53]),
    (1, [85, 218, 145, 248, 173, 34])]

theorem keeps_keptHi : keptHi.Keeps testAead .galois8 testKey [72, 105] where
  encrypted := ⟨testNonce, Encryption.encrypt_hi⟩
  encoded := by decide +kernel
  selected := by simp [Erasure.SelectedFrom, keptHi, Encryption.hiShards, withParity]
  three := by decide

theorem file_comes_back_hi :
    let data : Bytes := [72, 105]
    reassembled testAead .galois8 testKey KeptChunk.cut [keptHi] = some data ∧
      (reassembled testAead .galois8 testKey KeptChunk.whole [keptHi] = some data ↔
        data = [] ∨ data.length < chunkSize ∧ (data.length + tagLen) % 3 = 0) := by
  have hchunks : chunkData [72, 105] = [[72, 105]] := by
    have hcut : chunkData [72, 105] = Chunks.cut chunkSize [72, 105] := chunkData_eq _
    rw [hcut, Chunks.cut_of_length_le chunkSize_pos (by decide) (by decide)]
  refine file_comes_back testAead_documented ReedSolomon.galois8_documented ?_
  rw [hchunks]
  exact .cons keeps_keptHi .nil

end VaultKeeper
