import Mathlib.Data.List.Nodup
import Mathlib.Data.Set.Function
import Mathlib.Tactic.IntervalCases

/-!
# Core Types

The byte-level vocabulary of `core/src/types.rs` and of the two libraries the core crate
leans on. `blake3` is not part of the repository, so it enters as a function argument
`HashFn`; `hex` enters as a codec whose one law, the round trip, is a field.

* `Hash` carries its length, so a digest of the wrong size cannot be built.
* `HexCodec` is inhabited: `HexCodec.lowercase` is the codec the `hex` crate documents.
* `tabulated` builds, for a concrete input, a hash function that agrees with `blake3`
  on the digests it is given.
-/

namespace VaultKeeper

/-- A byte string (`Vec<u8>`, `&[u8]`). -/
abbrev Bytes := List UInt8

/-- The 4 MiB chunk size. -/
def chunkSize : ℕ := 4 * 1024 * 1024

/-- A 32-byte digest (`blake3::Hash`). -/
structure Hash where
  bytes : Bytes
  size : bytes.length = 32
deriving DecidableEq

@[ext] theorem Hash.ext {h₁ h₂ : Hash} (h : h₁.bytes = h₂.bytes) : h₁ = h₂ := by
  cases h₁
  cases h₂
  simpa using h

/-- The digest a byte string spells, when it has 32 bytes. -/
def Hash.ofBytes? (b : Bytes) : Option Hash :=
  if h : b.length = 32 then some ⟨b, h⟩ else none

@[simp] theorem Hash.ofBytes?_bytes (h : Hash) : Hash.ofBytes? h.bytes = some h := by
  simp [Hash.ofBytes?, h.size]

/-- Two digests written after one another determine both. -/
theorem Hash.append_inj {a b c d : Hash} (h : a.bytes ++ b.bytes = c.bytes ++ d.bytes) :
    a = c ∧ b = d := by
  obtain ⟨hac, hbd⟩ := List.append_inj h (a.size.trans c.size.symm)
  exact ⟨Hash.ext hac, Hash.ext hbd⟩

theorem Hash.length_append (a b : Hash) : (a.bytes ++ b.bytes).length = 64 := by
  simp [a.size, b.size]

/-- `blake3::hash`, and `Hasher::new` fed in pieces: a function of the bytes fed. -/
abbrev HashFn := Bytes → Hash

/-- No digest is the hash of itself written twice. -/
def NoSelfHash (blake3 : HashFn) : Prop :=
  ∀ h : Hash, blake3 (h.bytes ++ h.bytes) ≠ h

/-! ### Hex text -/

/-- The `hex` crate: `hex::encode`, `hex::decode` and their round trip. -/
structure HexCodec where
  encode : Bytes → String
  decode : String → Option Bytes
  decode_encode : ∀ b, decode (encode b) = some b

/-- `hex::encode` determines the bytes. -/
theorem HexCodec.encode_injective (hex : HexCodec) : Function.Injective hex.encode := by
  intro a b h
  have := congrArg hex.decode h
  rw [hex.decode_encode, hex.decode_encode] at this
  exact Option.some.inj this

/-- A digest read from hex text; any text that is not 32 bytes of hex is refused. -/
def decodeHash (hex : HexCodec) (s : String) : Option Hash :=
  (hex.decode s).bind Hash.ofBytes?

@[simp] theorem decodeHash_encode (hex : HexCodec) (h : Hash) :
    decodeHash hex (hex.encode h.bytes) = some h := by
  simp [decodeHash, hex.decode_encode]

/-- Text that is read as a digest decodes to its bytes. -/
theorem decode_of_decodeHash {hex : HexCodec} {s : String} {h : Hash}
    (hs : decodeHash hex s = some h) : hex.decode s = some h.bytes := by
  obtain ⟨b, hb, hh⟩ := Option.bind_eq_some_iff.mp hs
  rw [Hash.ofBytes?] at hh
  split at hh
  · obtain rfl := Option.some.inj hh
    exact hb
  · cases hh

/-- The lower-case digit of a value below 16. -/
def hexDigit (n : ℕ) : Char :=
  if n < 10 then Char.ofNat (48 + n) else Char.ofNat (87 + n)

/-- The value of a hex digit of either case. -/
def hexValue (c : Char) : Option ℕ :=
  if '0' ≤ c ∧ c ≤ '9' then some (c.toNat - 48)
  else if 'a' ≤ c ∧ c ≤ 'f' then some (c.toNat - 87)
  else if 'A' ≤ c ∧ c ≤ 'F' then some (c.toNat - 55)
  else none

/-- Two hex digits a byte; an odd digit or a character that is none is refused. -/
def hexBytes : List Char → Option Bytes
  | [] => some []
  | [_] => none
  | c :: d :: rest => do
      let hi ← hexValue c
      let lo ← hexValue d
      let bytes ← hexBytes rest
      pure (UInt8.ofNat (16 * hi + lo) :: bytes)

theorem hexValue_hexDigit {n : ℕ} (h : n < 16) : hexValue (hexDigit n) = some n := by
  interval_cases n <;> decide

theorem hexBytes_flatMap (b : Bytes) :
    hexBytes (b.flatMap fun x => [hexDigit (x.toNat / 16), hexDigit (x.toNat % 16)]) =
      some b := by
  induction b with
  | nil => rfl
  | cons x rest ih =>
      have hx : x.toNat < 256 := x.toNat_lt
      have hsum : 16 * (x.toNat / 16) + x.toNat % 16 = x.toNat := by omega
      simp only [List.flatMap_cons, List.cons_append, List.nil_append, hexBytes,
        hexValue_hexDigit (show x.toNat / 16 < 16 by omega),
        hexValue_hexDigit (show x.toNat % 16 < 16 by omega), ih, Option.bind_eq_bind,
        Option.bind_some, Option.pure_def, hsum, UInt8.ofNat_toNat]

/-- The codec of the `hex` crate: lower-case output, input of either case. -/
def HexCodec.lowercase : HexCodec where
  encode b := String.ofList
    (b.flatMap fun x => [hexDigit (x.toNat / 16), hexDigit (x.toNat % 16)])
  decode s := hexBytes s.toList
  decode_encode b := by simpa using hexBytes_flatMap b

/-! ### Chunk identifiers -/

/-- Identifier for a chunk of data: 32 bytes. -/
structure ChunkId where
  hash : Hash
deriving DecidableEq

/-- Why a text is no chunk identifier. -/
inductive ChunkIdError
  | hexError
  | wrongLength
deriving DecidableEq

/-- The identifier of a chunk is the hash of its data. -/
def ChunkId.new (blake3 : HashFn) (data : Bytes) : ChunkId := ⟨blake3 data⟩

def ChunkId.asHex (hex : HexCodec) (id : ChunkId) : String := hex.encode id.hash.bytes

def ChunkId.fromHex (hex : HexCodec) (s : String) : Except ChunkIdError ChunkId :=
  match hex.decode s with
  | none => .error .hexError
  | some bytes =>
      match Hash.ofBytes? bytes with
      | none => .error .wrongLength
      | some hash => .ok ⟨hash⟩

@[simp] theorem ChunkId.fromHex_asHex (hex : HexCodec) (id : ChunkId) :
    ChunkId.fromHex hex (id.asHex hex) = .ok id := by
  simp [ChunkId.fromHex, ChunkId.asHex, hex.decode_encode]

theorem ChunkId.asHex_injective (hex : HexCodec) : Function.Injective (ChunkId.asHex hex) := by
  intro a b h
  have hab := congrArg (ChunkId.fromHex hex) h
  rw [ChunkId.fromHex_asHex, ChunkId.fromHex_asHex] at hab
  exact Except.ok.inj hab

/-- Shard index within the erasure-coded set. -/
structure ShardIndex where
  val : UInt64
deriving DecidableEq

/-! ### Concrete hash functions -/

/-- A digest of 32 bytes taken from the front of an input, its first byte stepped. -/
def stepDigest (b : Bytes) : Hash where
  bytes := (b.headD 0 + 1) :: (b.drop 1 ++ List.replicate 31 0).take 31
  size := by simp

/-- The hash function that answers from a table, and by `stepDigest` outside of it. -/
def tabulated (table : List (Bytes × Hash)) : HashFn := fun b =>
  ((table.find? fun e => e.1 == b).map Prod.snd).getD (stepDigest b)

theorem stepDigest_self_ne (h : Hash) : stepDigest (h.bytes ++ h.bytes) ≠ h := by
  intro heq
  have hb := congrArg Hash.bytes heq
  obtain ⟨bytes, size⟩ := h
  cases bytes with
  | nil => simp at size
  | cons x rest =>
      simp only [stepDigest, List.cons_append, List.headD_cons, List.cons.injEq] at hb
      exact absurd hb.1 (by simp)

/-- A table without repeated inputs answers with the digest beside an input. -/
theorem tabulated_of_mem {table : List (Bytes × Hash)} (hkeys : (table.map Prod.fst).Nodup)
    {b : Bytes} {h : Hash} (hmem : (b, h) ∈ table) : tabulated table b = h := by
  induction table with
  | nil => cases hmem
  | cons e rest ih =>
      rw [List.map_cons, List.nodup_cons] at hkeys
      rcases List.mem_cons.mp hmem with rfl | hrest
      · simp [tabulated]
      · have hne : e.1 ≠ b := fun heq =>
          hkeys.1 (List.mem_map.mpr ⟨(b, h), hrest, heq.symm⟩)
        simpa [tabulated, hne] using ih hkeys.2 hrest

/-- And it tells its inputs apart, when no digest is repeated either. -/
theorem tabulated_injOn {table : List (Bytes × Hash)} (hkeys : (table.map Prod.fst).Nodup)
    (hdigests : (table.map Prod.snd).Nodup) :
    Set.InjOn (tabulated table) {b | b ∈ table.map Prod.fst} := by
  intro x hx y hy hxy
  obtain ⟨⟨x, h⟩, hxmem, rfl⟩ := List.mem_map.mp hx
  obtain ⟨⟨y, h'⟩, hymem, rfl⟩ := List.mem_map.mp hy
  rw [tabulated_of_mem hkeys hxmem, tabulated_of_mem hkeys hymem] at hxy
  exact congrArg Prod.fst (List.inj_on_of_nodup_map hdigests hxmem hymem hxy)

/-- A tabulated hash function hashes no digest to itself when its table does not. -/
theorem tabulated_noSelfHash {table : List (Bytes × Hash)}
    (h : ∀ e ∈ table, e.1 ≠ e.2.bytes ++ e.2.bytes) : NoSelfHash (tabulated table) := by
  intro d hd
  rw [tabulated] at hd
  cases hf : table.find? fun e => e.1 == d.bytes ++ d.bytes with
  | none =>
      rw [hf] at hd
      exact stepDigest_self_ne d hd
  | some e =>
      rw [hf] at hd
      obtain rfl : e.2 = d := hd
      have hkey := List.find?_some hf
      exact h e (List.mem_of_find?_eq_some hf) (by simpa using hkey)

end VaultKeeper
