import VaultKeeper.Merkle
import VaultKeeper.Schema

/-!
# The Ledger Store

`ledger/src/store.rs`: the Merkle root a ledger advertises. Each entry is hashed by the
text of its JSON object, which contains the sequence number the table gave it, and the
digests are paired in the order of these numbers.

## Main results

* `LedgerEntries.rootTexts_eq_of_length_eq`: two ledgers with as many entries and one root
  hash the same texts, unless two hashed byte strings collide.
* `LedgerEntries.root_eq_iff_order_eq`: two orders of inserting the same entries give one
  root exactly when they are the same order.
-/

namespace VaultKeeper

namespace LedgerEntries

variable (hex : HexCodec) (blake3 : HashFn) (t : LedgerEntries)

/-- The length of a page of `LedgerStore::get_entries_from`. -/
def pageLimit : ℕ := 10000

theorem pageLimit_pos : 0 < pageLimit := by
  rw [pageLimit]
  omega

/-- `LedgerStore::get_entries_from`: a page of the entries after a number. -/
def getPage (fromSeq : ℤ) : List Value :=
  t.getEntriesFrom fromSeq pageLimit

/-- A call of `LedgerStore::record_entry`: the id and the time it reads, and its arguments. -/
structure RecordCall where
  id : String
  timestamp : String
  entryType : String
  accountId : String
  amount : String
  balanceAfter : String
deriving DecidableEq

/-- The bytes that are hashed for the leaf of a recorded entry. -/
def RecordCall.leafInput (c : RecordCall) : Bytes :=
  utf8 (c.id ++ ":" ++ c.entryType ++ ":" ++ c.amount ++ ":" ++ c.timestamp)

/-- The columns of the row a call inserts. -/
def RecordCall.entry (c : RecordCall) : Entry where
  id := c.id
  entryType := c.entryType
  accountId := c.accountId
  amount := c.amount
  balanceAfter := c.balanceAfter
  timestamp := c.timestamp
  merkleLeaf := hex.encode (blake3 c.leafInput).bytes

/-- Record a new ledger entry. -/
def recordEntry (c : RecordCall) : Except SqlError (LedgerEntries × ℕ) :=
  t.insertEntry (c.entry hex blake3)

/-- Record entries in order; the first error ends it. -/
def recordAll (calls : List RecordCall) : Except SqlError LedgerEntries :=
  calls.foldlM (fun t c => Prod.fst <$> t.recordEntry hex blake3 c) t

/-- The number of entries the root covers at most. -/
def rootLimit : ℕ := 100000

/-- The texts that are hashed for the root. -/
def rootTexts : List String :=
  (t.getEntriesFrom 0 rootLimit).map Value.toText

/-- The digests the root is built from. -/
def rootHashes : List Hash :=
  t.rootTexts.map fun text => blake3 (utf8 text)

/-- Compute the Merkle root of all ledger entries. -/
def computeMerkleRoot : String :=
  if h : t.rootHashes blake3 = [] then hex.encode (blake3 (utf8 "empty")).bytes
  else hex.encode (PairTree.top (hashPair blake3) (t.rootHashes blake3) h).bytes

/-- The byte strings hashed for the root of a ledger with entries. -/
def rootInputs : List Bytes :=
  t.rootTexts.map utf8 ++
    (PairTree.joined (hashPair blake3) (t.rootHashes blake3)).map pairBytes

/-- The byte strings hashed for the root of a ledger, with or without entries. -/
def hashedInputs : List Bytes :=
  if t.rootTexts = [] then [utf8 "empty"] else t.rootInputs blake3

theorem rootTexts_eq : t.rootTexts = (t.rows.take rootLimit).map fun r => r.toValue.toText := by
  rw [rootTexts, ← Nat.cast_zero, getEntriesFrom_natCast, List.drop_zero, List.map_map]
  rfl

variable {hex blake3}

theorem mem_rootInputs {t : LedgerEntries} {b : Bytes} :
    b ∈ t.rootInputs blake3 ↔ (∃ text ∈ t.rootTexts, utf8 text = b) ∨
      ∃ p ∈ PairTree.joined (hashPair blake3) (t.rootHashes blake3), pairBytes p = b := by
  rw [rootInputs, List.mem_append, List.mem_map, List.mem_map]

/-- Ledgers with one list of digests hash the same texts, when no two of these collide. -/
theorem rootTexts_eq_of_rootHashes_eq {t₁ t₂ : LedgerEntries}
    (hinj : Set.InjOn blake3 {b | b ∈ t₁.rootInputs blake3 ∨ b ∈ t₂.rootInputs blake3})
    (h : t₁.rootHashes blake3 = t₂.rootHashes blake3) : t₁.rootTexts = t₂.rootTexts := by
  refine PairTree.eq_of_map_eq ?_ h
  have hmem : ∀ s, s ∈ t₁.rootTexts ∨ s ∈ t₂.rootTexts →
      utf8 s ∈ t₁.rootInputs blake3 ∨ utf8 s ∈ t₂.rootInputs blake3 := fun s hs =>
    hs.imp (fun h => mem_rootInputs.mpr (Or.inl ⟨s, h, rfl⟩))
      fun h => mem_rootInputs.mpr (Or.inl ⟨s, h, rfl⟩)
  intro s hs u hu hsu
  exact utf8_injective (hinj (hmem s hs) (hmem u hu) hsu)

/-- The pairs joined for two roots are told apart by their digests. -/
theorem joined_injOn {t₁ t₂ : LedgerEntries}
    (hinj : Set.InjOn blake3 {b | b ∈ t₁.rootInputs blake3 ∨ b ∈ t₂.rootInputs blake3}) :
    Set.InjOn (fun p : Hash × Hash => hashPair blake3 p.1 p.2)
      {p | p ∈ PairTree.joined (hashPair blake3) (t₁.rootHashes blake3) ∨
        p ∈ PairTree.joined (hashPair blake3) (t₂.rootHashes blake3)} := by
  refine hashPair_injOn blake3 (hinj.mono ?_)
  rintro _ ⟨p, hp, rfl⟩
  exact hp.imp (fun h => mem_rootInputs.mpr (Or.inr ⟨p, h, rfl⟩))
    fun h => mem_rootInputs.mpr (Or.inr ⟨p, h, rfl⟩)

/-- **Binding of the root**: two ledgers with as many entries and one root hash the same
texts, when no two byte strings hashed for either collide. -/
theorem rootTexts_eq_of_length_eq {t₁ t₂ : LedgerEntries}
    (hlen : t₁.rootTexts.length = t₂.rootTexts.length)
    (hinj : Set.InjOn blake3 {b | b ∈ t₁.rootInputs blake3 ∨ b ∈ t₂.rootInputs blake3})
    (h : t₁.computeMerkleRoot hex blake3 = t₂.computeMerkleRoot hex blake3) :
    t₁.rootTexts = t₂.rootTexts := by
  by_cases hnil : t₁.rootHashes blake3 = []
  · have hnone : t₁.rootTexts = [] := List.map_eq_nil_iff.mp hnil
    rw [hnone, List.length_nil] at hlen
    rw [hnone, List.length_eq_zero_iff.mp hlen.symm]
  · have hnil₂ : t₂.rootHashes blake3 ≠ [] := by
      intro hnone
      refine hnil (List.map_eq_nil_iff.mpr (List.length_eq_zero_iff.mp ?_))
      rw [hlen, List.map_eq_nil_iff.mp hnone, List.length_nil]
    rw [computeMerkleRoot, computeMerkleRoot, dif_neg hnil, dif_neg hnil₂] at h
    have htop := Hash.ext (hex.encode_injective h)
    refine rootTexts_eq_of_rootHashes_eq hinj ?_
    exact PairTree.top_injOn (hashPair blake3) hnil hnil₂ (by simpa [rootHashes] using hlen)
      (joined_injOn hinj) htop

theorem length_rowsOf (n : ℕ) (es : List Entry) : (rowsOf n es).length = es.length := by
  induction es generalizing n with
  | nil => rfl
  | cons e es ih => simp [rowsOf, ih]

theorem ids_rowsOf (n : ℕ) (es : List Entry) :
    ((rowsOf n es).map fun r => r.id) = es.map Entry.id := by
  induction es generalizing n with
  | nil => rfl
  | cons e es ih => simp [rowsOf, ih]

/-- The texts of rows numbered from one number on determine the entries. -/
theorem rowsOf_texts_injective {n : ℕ} {es fs : List Entry}
    (h : (rowsOf n es).map (fun r => r.toValue.toText) =
      (rowsOf n fs).map fun r => r.toValue.toText) : es = fs := by
  induction es generalizing n fs with
  | nil =>
      cases fs with
      | nil => rfl
      | cons f fs => simp [rowsOf] at h
  | cons e es ih =>
      cases fs with
      | nil => simp [rowsOf] at h
      | cons f fs =>
          simp only [rowsOf, List.map_cons, List.cons.injEq] at h
          have hef : e = f :=
            Row.text_injective (r := ⟨e, n, false⟩) (s := ⟨f, n, false⟩) rfl h.1
          rw [hef, ih h.2]

/-- A new ledger into which entries with distinct ids were inserted in order. -/
theorem exists_insertAll (es : List Entry) (hids : (es.map Entry.id).Nodup)
    (hlen : es.length ≤ rootLimit) :
    ∃ t, empty.insertAll es = .ok t ∧ t.rows = rowsOf 1 es ∧
      t.rootTexts = (rowsOf 1 es).map fun r => r.toValue.toText := by
  have hsize : es.length < 2 ^ 63 := hlen.trans_lt (by decide)
  obtain ⟨t, hall, hrows⟩ := @insertAll_ok empty es
    (by simpa [empty] using hids) (by simpa [empty] using hsize)
  have hone : t.rows = rowsOf 1 es := by simpa [empty] using hrows
  refine ⟨t, hall, hone, ?_⟩
  rw [rootTexts_eq, hone, List.take_of_length_le]
  rwa [length_rowsOf]

/-- **Roots and orders**: two orders of inserting the same entries into a new ledger give
one root exactly when they are the same order, when no two byte strings hashed for
either collide. -/
theorem root_eq_iff_order_eq (hex : HexCodec) (blake3 : HashFn) {order₁ order₂ : List Entry}
    (hperm : order₁.Perm order₂) (hids : (order₁.map Entry.id).Nodup)
    (hlen : order₁.length ≤ rootLimit) :
    ∃ t₁ t₂, empty.insertAll order₁ = .ok t₁ ∧ empty.insertAll order₂ = .ok t₂ ∧
      (Set.InjOn blake3 {b | b ∈ t₁.rootInputs blake3 ∨ b ∈ t₂.rootInputs blake3} →
        (t₁.computeMerkleRoot hex blake3 = t₂.computeMerkleRoot hex blake3 ↔
          order₁ = order₂)) := by
  obtain ⟨t₁, hall₁, -, htexts₁⟩ := exists_insertAll order₁ hids hlen
  obtain ⟨t₂, hall₂, -, htexts₂⟩ := exists_insertAll order₂
    ((hperm.map Entry.id).nodup_iff.mp hids) (hperm.length_eq ▸ hlen)
  refine ⟨t₁, t₂, hall₁, hall₂, fun hinj => ⟨fun hroot => ?_, ?_⟩⟩
  · have htexts := rootTexts_eq_of_length_eq ?_ hinj hroot
    · rw [htexts₁, htexts₂] at htexts
      exact rowsOf_texts_injective htexts
    · rw [htexts₁, htexts₂, List.length_map, List.length_map, length_rowsOf, length_rowsOf,
        hperm.length_eq]
  · rintro rfl
    rw [Except.ok.inj (hall₁.symm.trans hall₂)]

/-- A deposit. -/
def depositEntry : Entry where
  id := "tx1"
  entryType := "deposit"
  accountId := "acc1"
  amount := "100.00"
  balanceAfter := "100.00"
  timestamp := "2024-01-01T00:00:00Z"
  merkleLeaf := "leaf1"

/-- A charge. -/
def chargeEntry : Entry where
  id := "tx2"
  entryType := "charge"
  accountId := "acc1"
  amount := "10.00"
  balanceAfter := "90.00"
  timestamp := "2024-01-01T01:00:00Z"
  merkleLeaf := "leaf2"

/-- The bytes of an entry's text under a number. -/
def entryBytes (e : Entry) (seq : ℕ) : Bytes :=
  utf8 (Row.toValue { e with seq := seq, synced := false }).toText

/-- The digest of the deposit as entry 1. -/
def depositDigest1 : Hash where
  bytes := [4, 193, 95, 164, 124, 84, 105, 91, 155, 30, 237, 130, 183, 28, 156, 66, 9, 112,
      7, 253, 201, 208, 180, 51, 255, 52, 169, 153, 31, 145, 242, 78]
  size := rfl

/-- The digest of the charge as entry 2. -/
def chargeDigest2 : Hash where
  bytes := [31, 45, 112, 188, 66, 110, 187, 157, 29, 66, 194, 251, 160, 185, 237, 159, 122,
      39, 58, 88, 25, 218, 118, 133, 149, 149, 108, 133, 78, 92, 187, 234]
  size := rfl

/-- The digest of the charge as entry 1. -/
def chargeDigest1 : Hash where
  bytes := [196, 186, 115, 185, 132, 224, 74, 102, 109, 117, 179, 43, 204, 243, 7, 193, 40,
      38, 149, 165, 187, 224, 6, 93, 214, 17, 202, 238, 79, 96, 27, 226]
  size := rfl

/-- The digest of the deposit as entry 2. -/
def depositDigest2 : Hash where
  bytes := [72, 248, 127, 132, 143, 173, 22, 231, 220, 10, 233, 78, 35, 218, 57, 251, 104,
      219, 15, 51, 47, 14, 119, 238, 120, 201, 144, 174, 220, 23, 196, 134]
  size := rfl

/-- `blake3` on the byte strings hashed for the two orders of a deposit and a charge. -/
def blake3Orders : HashFn :=
  tabulated
    [(entryBytes depositEntry 1, depositDigest1), (entryBytes chargeEntry 2, chargeDigest2),
      (entryBytes chargeEntry 1, chargeDigest1), (entryBytes depositEntry 2, depositDigest2),
      (depositDigest1.bytes ++ chargeDigest2.bytes,
        { bytes := [63, 135, 206, 188, 200, 78, 115, 115, 85, 238, 198, 108, 48, 132, 42,
            128, 182, 153, 191, 212, 209, 27, 182, 159, 199, 175, 229, 215, 198, 181,
            118, 100]
          size := rfl }),
      (chargeDigest1.bytes ++ depositDigest2.bytes,
        { bytes := [68, 88, 12, 53, 211, 90, 208, 32, 170, 135, 243, 116, 121, 126, 93, 25,
            252, 75, 6, 146, 221, 110, 107, 216, 76, 156, 108, 28, 189, 59, 111, 235]
          size := rfl })]

/-- The byte strings hashed for a deposit and a charge, and for the other order. -/
def ordersInputs : List Bytes :=
  [entryBytes depositEntry 1, entryBytes chargeEntry 2,
    depositDigest1.bytes ++ chargeDigest2.bytes, entryBytes chargeEntry 1,
    entryBytes depositEntry 2, chargeDigest1.bytes ++ depositDigest2.bytes]

theorem blake3Orders_injOn_inputs : Set.InjOn blake3Orders {b | b ∈ ordersInputs} := by
  refine (tabulated_injOn (by decide +kernel) (by decide)).mono fun b hb => ?_
  simp only [ordersInputs, Set.mem_ofPred_eq, List.mem_cons, List.not_mem_nil, or_false] at hb
  rcases hb with rfl | rfl | rfl | rfl | rfl | rfl <;> simp

/-- A ledger of a deposit and a ledger of a charge have different roots. -/
theorem deposit_charge_roots_ne {l p : LedgerEntries}
    (hl : l.rootTexts = (rowsOf 1 [depositEntry]).map fun r => r.toValue.toText)
    (hp : p.rootTexts = (rowsOf 1 [chargeEntry]).map fun r => r.toValue.toText) :
    p.computeMerkleRoot .lowercase blake3Orders ≠
      l.computeMerkleRoot .lowercase blake3Orders := by
  intro hroot
  have hlen : p.rootTexts.length = l.rootTexts.length := by simp [hl, hp, length_rowsOf]
  have hinputs : ∀ b, (b ∈ p.rootInputs blake3Orders ∨ b ∈ l.rootInputs blake3Orders) →
      b ∈ ordersInputs := by
    intro b hb
    have hcases : b = entryBytes chargeEntry 1 ∨ b = entryBytes depositEntry 1 := by
      simpa [rootInputs, rootHashes, hl, hp, rowsOf, entryBytes] using hb
    rcases hcases with rfl | rfl
    · simp [ordersInputs]
    · simp [ordersInputs]
  have htexts := rootTexts_eq_of_length_eq hlen (blake3Orders_injOn_inputs.mono hinputs) hroot
  rw [hl, hp] at htexts
  exact absurd (rowsOf_texts_injective htexts) (by decide)

theorem blake3Orders_injOn {t₁ t₂ : LedgerEntries}
    (h₁ : empty.insertAll [depositEntry, chargeEntry] = .ok t₁)
    (h₂ : empty.insertAll [chargeEntry, depositEntry] = .ok t₂) :
    Set.InjOn blake3Orders
      {b | b ∈ t₁.rootInputs blake3Orders ∨ b ∈ t₂.rootInputs blake3Orders} := by
  obtain ⟨u₁, hu₁, -, htexts₁⟩ :=
    exists_insertAll [depositEntry, chargeEntry] (by decide) (by decide)
  obtain ⟨u₂, hu₂, -, htexts₂⟩ :=
    exists_insertAll [chargeEntry, depositEntry] (by decide) (by decide)
  obtain rfl := Except.ok.inj (h₁.symm.trans hu₁)
  obtain rfl := Except.ok.inj (h₂.symm.trans hu₂)
  have hlist : t₁.rootInputs blake3Orders ++ t₂.rootInputs blake3Orders = ordersInputs := by
    simp only [rootInputs, rootHashes, htexts₁, htexts₂]
    decide +kernel
  refine blake3Orders_injOn_inputs.mono fun b hb => ?_
  have hmem : b ∈ t₁.rootInputs blake3Orders ++ t₂.rootInputs blake3Orders :=
    List.mem_append.mpr hb
  rwa [hlist] at hmem

theorem root_eq_iff_order_eq_swapped :
    ∃ t₁ t₂, empty.insertAll [depositEntry, chargeEntry] = .ok t₁ ∧
      empty.insertAll [chargeEntry, depositEntry] = .ok t₂ ∧
        (t₁.computeMerkleRoot .lowercase blake3Orders =
            t₂.computeMerkleRoot .lowercase blake3Orders ↔
          [depositEntry, chargeEntry] = [chargeEntry, depositEntry]) := by
  obtain ⟨t₁, t₂, h₁, h₂, hiff⟩ := root_eq_iff_order_eq .lowercase blake3Orders
    (List.Perm.swap chargeEntry depositEntry []) (by decide) (by decide)
  exact ⟨t₁, t₂, h₁, h₂, hiff (blake3Orders_injOn h₁ h₂)⟩

/-- A deposit and a charge inserted in the two orders give two roots. -/
theorem swapped_orders_differ :
    ¬ ∀ order₁ order₂ : List Entry, order₁.Perm order₂ → (order₁.map Entry.id).Nodup →
      order₁.length ≤ rootLimit → ∀ t₁ t₂, empty.insertAll order₁ = .ok t₁ →
        empty.insertAll order₂ = .ok t₂ →
        Set.InjOn blake3Orders
          {b | b ∈ t₁.rootInputs blake3Orders ∨ b ∈ t₂.rootInputs blake3Orders} →
        t₁.computeMerkleRoot .lowercase blake3Orders =
          t₂.computeMerkleRoot .lowercase blake3Orders := by
  intro hall
  obtain ⟨t₁, h₁, -, htexts₁⟩ :=
    exists_insertAll [depositEntry, chargeEntry] (by decide) (by decide)
  obtain ⟨t₂, h₂, -, htexts₂⟩ :=
    exists_insertAll [chargeEntry, depositEntry] (by decide) (by decide)
  have hinj := blake3Orders_injOn h₁ h₂
  have hroot := hall _ _ (List.Perm.swap chargeEntry depositEntry []) (by decide) (by decide)
    t₁ t₂ h₁ h₂ hinj
  have htexts := rootTexts_eq_of_length_eq (by simp [htexts₁, htexts₂, length_rowsOf]) hinj hroot
  rw [htexts₁, htexts₂] at htexts
  exact absurd (rowsOf_texts_injective htexts) (by decide)

end LedgerEntries

end VaultKeeper
