import Mathlib.Logic.Equiv.Basic
import VaultKeeper.Erasure

/-!
# Encryption

`core/src/encryption.rs`, and how its ciphertexts fare in `core/src/erasure.rs`.
XChaCha20-Poly1305 is not part of the repository. It enters as two functions with two laws
(`Aead.Documented`): a ciphertext is 16 bytes longer than its plaintext, and what is
accepted under a key and a nonce is what was encrypted under them. The random nonce is an
argument of `Encryption.encrypt`.

A stored shard carries no length, so what the decoder returns is the ciphertext with the
padding of the erasure coding, and with a padding it is another byte string.

## Main results

* `Aead.permuted_documented`: the laws hold of every cipher that appends a tag and permutes
  the byte strings of each length.
* `Encryption.decrypt_reconstruct_iff`: when a recovered ciphertext is decrypted.
-/

namespace VaultKeeper

/-- Auth tag length. -/
def tagLen : ℕ := 16

/-- Nonce length. -/
def nonceLen : ℕ := 24

/-- Derived key length. -/
def derivedKeyLen : ℕ := 32

/-- Derived encryption key. -/
structure DerivedKey where
  bytes : Bytes
  size : bytes.length = derivedKeyLen
deriving DecidableEq

/-- Encryption nonce. -/
structure Nonce where
  bytes : Bytes
  size : bytes.length = nonceLen
deriving DecidableEq

/-- `XChaCha20Poly1305`: `encrypt` and `decrypt` without associated data. -/
structure Aead where
  encrypt : DerivedKey → Nonce → Bytes → Option Bytes
  decrypt : DerivedKey → Nonce → Bytes → Option Bytes

/-- What the documentation of the cipher says. -/
structure Aead.Documented (aead : Aead) : Prop where
  length_encrypt : ∀ key nonce p ct, aead.encrypt key nonce p = some ct →
    ct.length = p.length + tagLen
  decrypt_iff : ∀ key nonce p ct,
    aead.decrypt key nonce ct = some p ↔ aead.encrypt key nonce p = some ct

/-- The errors of the encryption. -/
inductive EncryptionError
  | encryptionFailed
  | decryptionFailed
deriving DecidableEq

/-- The text of an error. -/
def EncryptionError.text : EncryptionError → String
  | .encryptionFailed => "Encryption failed: aead::Error"
  | .decryptionFailed =>
      "Decryption failed (invalid key, nonce, or tampered data): aead::Error"

namespace Encryption

/-- Encrypt plaintext with the given key, under a nonce drawn for it. -/
def encrypt (aead : Aead) (nonce : Nonce) (key : DerivedKey) (plaintext : Bytes) :
    Except EncryptionError (Nonce × Bytes) :=
  match aead.encrypt key nonce plaintext with
  | none => .error .encryptionFailed
  | some ciphertext => .ok (nonce, ciphertext)

/-- Decrypt ciphertext with the given key and nonce. -/
def decrypt (aead : Aead) (key : DerivedKey) (nonce : Nonce) (ciphertext : Bytes) :
    Except EncryptionError Bytes :=
  match aead.decrypt key nonce ciphertext with
  | none => .error .decryptionFailed
  | some plaintext => .ok plaintext

theorem encrypt_eq_ok {aead : Aead} {nonce nonce' : Nonce} {key : DerivedKey} {p ct : Bytes} :
    encrypt aead nonce key p = .ok (nonce', ct) ↔
      nonce' = nonce ∧ aead.encrypt key nonce p = some ct := by
  rw [encrypt]
  cases aead.encrypt key nonce p with
  | none => simp
  | some c => simp [eq_comm]

theorem decrypt_eq_ok {aead : Aead} {nonce : Nonce} {key : DerivedKey} {p ct : Bytes} :
    decrypt aead key nonce ct = .ok p ↔ aead.decrypt key nonce ct = some p := by
  rw [decrypt]
  cases aead.decrypt key nonce ct with
  | none => simp
  | some q => simp

end Encryption

/-- No padding is needed exactly for the multiples of three. -/
theorem Erasure.append_padding_eq_self (data : Bytes) :
    data ++ padding data.length = data ↔ data.length % 3 = 0 := by
  rw [List.append_right_eq_self, padding, List.replicate_eq_nil_iff]
  omega

/-- **Recovery of a ciphertext**: from three shards with distinct indices the decoder always
returns something, and that is decrypted to the plaintext exactly when the length of the
ciphertext is a multiple of three. -/
theorem Encryption.decrypt_reconstruct_iff {aead : Aead} {rs : ReedSolomon}
    (haead : aead.Documented) (hrs : rs.Documented) {key : DerivedKey} {nonce nonce' : Nonce}
    {p ct : Bytes} (hct : encrypt aead nonce key p = .ok (nonce', ct)) :
    ∃ shards, Erasure.encode rs ct = .ok shards ∧
      ∀ selection, Erasure.SelectedFrom shards selection →
        (selection.map Prod.fst).Nodup → 3 ≤ selection.length →
          ∃ recovered, Erasure.reconstruct rs selection = .ok recovered ∧
            (decrypt aead key nonce' recovered = .ok p ↔ (p.length + tagLen) % 3 = 0) := by
  obtain ⟨rfl, henc⟩ := encrypt_eq_ok.mp hct
  have hlen := haead.length_encrypt _ _ _ _ henc
  have hne : ct ≠ [] := List.ne_nil_of_length_pos (by rw [hlen, tagLen]; omega)
  obtain ⟨shards, hshards, hrec⟩ := Erasure.reconstruct_encode hrs hne
  refine ⟨shards, hshards, fun selection hsel hnodup hthree => ⟨_, hrec selection hsel ?_, ?_⟩⟩
  · rwa [hnodup.dedup, List.length_map]
  · rw [decrypt_eq_ok, haead.decrypt_iff, henc, Option.some_inj, eq_comm,
      Erasure.append_padding_eq_self, hlen]

/-! ### Ciphers by permutation -/

/-- The cipher that appends a tag of zeros and permutes the byte strings of each length. -/
def Aead.permuted (perm : DerivedKey → Nonce → Equiv.Perm Bytes) : Aead where
  encrypt key nonce p := some (perm key nonce (p ++ List.replicate tagLen 0))
  decrypt key nonce ct :=
    let padded := (perm key nonce).symm ct
    let p := padded.take (padded.length - tagLen)
    if padded = p ++ List.replicate tagLen 0 then some p else none

/-- **Ciphers by permutation** do what the documentation says. -/
theorem Aead.permuted_documented {perm : DerivedKey → Nonce → Equiv.Perm Bytes}
    (hlen : ∀ key nonce b, (perm key nonce b).length = b.length) :
    (Aead.permuted perm).Documented where
  length_encrypt key nonce p ct h := by
    obtain rfl := Option.some.inj h
    simp [hlen]
  decrypt_iff key nonce p ct := by
    simp only [permuted, Option.ite_none_right_eq_some, Option.some_inj]
    rw [← Equiv.eq_symm_apply]
    constructor
    · rintro ⟨hpadded, rfl⟩
      exact hpadded.symm
    · intro h
      rw [← h]
      simp

/-- The key of the tests. -/
def testKey : DerivedKey where
  bytes := List.replicate derivedKeyLen 66
  size := List.length_replicate

/-- The nonce of the bytes 0 to 23. -/
def testNonce : Nonce where
  bytes := [0, 1, 2, 3, 4, 5, 6, 7, 8, 9, 10, 11, 12, 13, 14, 15, 16, 17, 18, 19, 20, 21, 22, 23]
  size := rfl

/-- The ciphertext of the byte 42 under the test key and nonce. -/
def byteCiphertext : Bytes :=
  [166, 8, 67, 189, 161, 231, 133, 130, 79, 152, 123, 56, 170, 224, 47, 150, 252]

/-- The ciphertext of the text `Hi` under the test key and nonce. -/
def hiCiphertext : Bytes :=
  [196, 149, 130, 226, 41, 53, 85, 218, 145, 248, 173, 34, 128, 9, 194, 128, 75, 222]

/-- XChaCha20-Poly1305 on the byte 42 and the text `Hi` under the test key and nonce. -/
def testAead : Aead :=
  .permuted fun key nonce =>
    if key = testKey ∧ nonce = testNonce then
      (Equiv.swap ([42] ++ List.replicate tagLen 0) byteCiphertext).trans
        (Equiv.swap ([72, 105] ++ List.replicate tagLen 0) hiCiphertext)
    else Equiv.refl Bytes

theorem length_swap {a b : Bytes} (h : b.length = a.length) (x : Bytes) :
    (Equiv.swap a b x).length = x.length := by
  rw [Equiv.swap_apply_def]
  split_ifs with ha hb
  · rw [ha, h]
  · rw [hb, h]
  · rfl

theorem testAead_documented : testAead.Documented := by
  refine Aead.permuted_documented fun key nonce b => ?_
  split
  · rw [Equiv.trans_apply, length_swap (by decide), length_swap (by decide)]
  · rfl

namespace Encryption

theorem encrypt_hi : encrypt testAead testNonce testKey [72, 105] =
    .ok (testNonce, hiCiphertext) := by
  decide +kernel

theorem encrypt_byte : encrypt testAead testNonce testKey [42] =
    .ok (testNonce, byteCiphertext) := by
  decide +kernel

/-- The shards of the ciphertext of the text `Hi`. -/
def hiShards : List Bytes :=
  withParity [196, 149, 130, 226, 41, 53] [85, 218, 145, 248, 173, 34]
    [128, 9, 194, 128, 75, 222]

/-- The shards of the ciphertext of the byte 42, the third with a byte of padding. -/
def byteShards : List Bytes :=
  withParity [166, 8, 67, 189, 161, 231] [133, 130, 79, 152, 123, 56] [170, 224, 47, 150, 252, 0]

theorem decrypt_reconstruct_iff_hi :
    ∃ recovered, Erasure.reconstruct .galois8
        [(2, [128, 9, 194, 128, 75, 222]), (0, [196, 149, 130, 226, 41, 53]),
          (1, [85, 218, 145, 248, 173, 34])] = .ok recovered ∧
      (decrypt testAead testKey testNonce recovered = .ok [72, 105] ↔
        ([72, 105].length + tagLen) % 3 = 0) := by
  obtain ⟨shards, henc, hrec⟩ :=
    decrypt_reconstruct_iff testAead_documented ReedSolomon.galois8_documented encrypt_hi
  have hshards : Erasure.encode .galois8 hiCiphertext = .ok hiShards := by decide +kernel
  obtain rfl := Except.ok.inj (hshards.symm.trans henc)
  exact hrec _ (by simp [Erasure.SelectedFrom, hiShards, withParity]) (by decide) (by decide)

/-- The 17 bytes of the ciphertext of one byte come back with a padding byte, and are
refused. -/
theorem byte_not_recovered :
    ¬ ∀ (aead : Aead) (rs : ReedSolomon), aead.Documented → rs.Documented →
      ∀ key nonce p nonce' ct, encrypt aead nonce key p = .ok (nonce', ct) →
        ∀ shards, Erasure.encode rs ct = .ok shards →
          ∀ selection, Erasure.SelectedFrom shards selection →
            (selection.map Prod.fst).Nodup → 3 ≤ selection.length →
              ∃ recovered, Erasure.reconstruct rs selection = .ok recovered ∧
                decrypt aead key nonce' recovered = .ok p := by
  intro hall
  have hne : byteCiphertext ≠ [] := by decide
  have hshards : Erasure.encode .galois8 byteCiphertext = .ok byteShards := by decide +kernel
  have hsel : Erasure.SelectedFrom byteShards [(0, [166, 8, 67, 189, 161, 231]),
      (1, [133, 130, 79, 152, 123, 56]), (2, [170, 224, 47, 150, 252, 0])] := by
    simp [Erasure.SelectedFrom, byteShards, withParity]
  obtain ⟨shards, henc, hrec⟩ := Erasure.reconstruct_encode ReedSolomon.galois8_documented hne
  obtain rfl := Except.ok.inj (hshards.symm.trans henc)
  obtain ⟨recovered, hrecovered, hdecrypt⟩ := hall _ _ testAead_documented
    ReedSolomon.galois8_documented _ _ _ _ _ encrypt_byte _ hshards _ hsel (by decide)
    (by decide)
  obtain rfl := Except.ok.inj (hrecovered.symm.trans (hrec _ hsel (by decide)))
  exact absurd hdecrypt (by decide +kernel)

end Encryption

end VaultKeeper
