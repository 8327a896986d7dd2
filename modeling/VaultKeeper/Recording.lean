import VaultKeeper.CollisionFree
import VaultKeeper.LedgerRoot
import VaultKeeper.Padding

/-!
# Recorded Entries and the Root

`ledger/src/store.rs`: `record_entry` and the root that is computed after it. The root
reads the first `rootLimit` entries, so that it changes with each recorded entry until the
ledger is that long, and never again.

## Main results

* `LedgerEntries.record_changes_root_iff`: when the root shows a recorded entry.
* `LedgerEntries.exists_collisionFree`: the byte strings hashed for a ledger, its leaves
  and its root can all be told apart by a hash function, whatever was recorded.
-/

namespace VaultKeeper

namespace LedgerEntries

variable {hex : HexCodec} {blake3 : HashFn} {t t' : LedgerEntries}

/-- Recording is inserting the rows of the calls. -/
theorem recordAll_eq (hex : HexCodec) (blake3 : HashFn) (t : LedgerEntries)
    (calls : List RecordCall) :
    t.recordAll hex blake3 calls = t.insertAll (calls.map (RecordCall.entry hex blake3)) := by
  rw [insertAll, List.foldlM_map]
  rfl

theorem map_id_entry (hex : HexCodec) (blake3 : HashFn) (calls : List RecordCall) :
    (calls.map (RecordCall.entry hex blake3)).map Entry.id = calls.map RecordCall.id := by
  rw [List.map_map]
  rfl

/-- One more row is one more text while the root covers all rows, and none after. -/
theorem rootTexts_append {r : Row} (h : t'.rows = t.rows ++ [r]) :
    t'.rootTexts = t.rootTexts ↔ rootLimit ≤ t.rows.length := by
  rw [rootTexts_eq, rootTexts_eq, h]
  refine ⟨fun htexts => ?_, fun hfull => by rw [List.take_append_of_le_length hfull]⟩
  have hlen := congrArg List.length htexts
  simp only [List.length_map, List.length_take, List.length_append, List.length_singleton] at hlen
  omega

/-- The text of a recorded entry differs from all others: its row has the last number, and
the ids of a ledger are distinct. -/
theorem text_ne_of_record {c : RecordCall} {seq : ℕ}
    (hrec : t.recordEntry hex blake3 c = .ok (t', seq)) :
    ∀ r ∈ t.rows, ∀ r' ∈ t'.rows, r'.seq = seq → r'.toValue.toText ≠ r.toValue.toText := by
  obtain ⟨hrows, rfl⟩ := insertEntry_eq_ok hrec
  intro r hr r' hr' hseq htext
  have hids := t'.ids
  rw [hrows, List.map_append] at hids
  rw [hrows, List.mem_append] at hr'
  rcases hr' with hr' | hr'
  · have hle := seq_le_of_mem hr'
    omega
  · refine List.disjoint_of_nodup_append hids (List.mem_map_of_mem hr) ?_
    rw [← Row.id_eq_of_text_eq htext]
    exact List.mem_map_of_mem hr'

/-- Two roots of one ledger, before and after one more row, differ exactly while the root
covers all rows, when no two byte strings hashed for either collide. -/
theorem root_append_iff {r : Row} (h : t'.rows = t.rows ++ [r])
    (hinj : Set.InjOn blake3 {b | b ∈ t.hashedInputs blake3 ∨ b ∈ t'.hashedInputs blake3}) :
    t'.computeMerkleRoot hex blake3 ≠ t.computeMerkleRoot hex blake3 ↔
      t.rows.length < rootLimit := by
  rw [← not_le, ← rootTexts_append h, not_iff_not]
  refine ⟨fun hroot => ?_, computeMerkleRoot_congr hex blake3⟩
  exact (rootTexts_eq_of_root_eq hinj hroot.symm).symm

/-- **What the root shows of a recorded entry**: it changes exactly while the ledger has
fewer than `rootLimit` entries, when no two byte strings hashed before and after collide. -/
theorem record_changes_root_iff (hex : HexCodec) (blake3 : HashFn) {t t' : LedgerEntries}
    {c : RecordCall} {seq : ℕ} (hrec : t.recordEntry hex blake3 c = .ok (t', seq))
    (hinj : Set.InjOn blake3 {b | b ∈ t.hashedInputs blake3 ∨ b ∈ t'.hashedInputs blake3}) :
    t'.computeMerkleRoot hex blake3 ≠ t.computeMerkleRoot hex blake3 ↔
      t.rows.length < rootLimit :=
  root_append_iff (insertEntry_eq_ok hrec).1 hinj

/-! ### A recorded deposit and charge -/

/-- A recorded deposit. -/
def depositCall : RecordCall where
  id := "3b1c8c1e-6f0a-4d27-9a55-0c5d2f7e8a41"
  timestamp := "2024-01-01T00:00:00.250+00:00"
  entryType := "deposit"
  accountId := "acc1"
  amount := "100.00"
  balanceAfter := "100.00"

/-- A recorded charge. -/
def chargeCall : RecordCall where
  id := "a4f2d9b0-17c3-4e68-8b1d-5e90c7f3126a"
  timestamp := "2024-01-01T01:00:00.750+00:00"
  entryType := "charge"
  accountId := "acc1"
  amount := "10.00"
  balanceAfter := "90.00"

/-- The leaf of the deposit. -/
def depositLeaf : Hash where
  bytes := [123, 174, 235, 7, 89, 19, 141, 208, 34, 172, 18, 212, 139, 72, 29, 52, 243, 34,
    194, 177, 139, 6, 122, 43, 185, 133, 96, 222, 149, 9, 226, 162]
  size := rfl

/-- The leaf of the charge. -/
def chargeLeaf : Hash where
  bytes := [246, 123, 240, 181, 150, 168, 138, 199, 61, 23, 37, 93, 78, 227, 166, 49, 93, 99,
    77, 62, 96, 121, 3, 114, 176, 83, 34, 204, 66, 96, 212, 231]
  size := rfl

/-- The bytes of the deposit's text as entry 1. -/
def depositBytes : Bytes :=
  entryBytes (depositCall.entry .lowercase fun _ => depositLeaf) 1

/-- The bytes of the charge's text as entry 2. -/
def chargeBytes : Bytes :=
  entryBytes (chargeCall.entry .lowercase fun _ => chargeLeaf) 2

/-- The digest of the deposit's text. -/
def depositDigest : Hash where
  bytes := [104, 174, 42, 113, 45, 106, 109, 12, 123, 152, 99, 136, 194, 174, 129, 183, 108,
    79, 172, 9, 25, 126, 162, 73, 125, 156, 200, 220, 196, 209, 132, 206]
  size := rfl

/-- The digest of the charge's text. -/
def chargeDigest : Hash where
  bytes := [17, 124, 2, 54, 17, 49, 171, 144, 171, 54, 139, 82, 223, 54, 199, 84, 230, 77,
    47, 56, 146, 15, 222, 91, 99, 248, 192, 50, 6, 79, 133, 92]
  size := rfl

/-- The digest of the two digests. -/
def recordedDigest : Hash where
  bytes := [155, 134, 253, 84, 4, 29, 60, 148, 93, 115, 210, 170, 103, 38, 170, 243, 129, 94,
    41, 237, 100, 84, 55, 165, 75, 185, 110, 87, 244, 39, 73, 146]
  size := rfl

/-- The byte strings hashed when the deposit and the charge are recorded, and their digests. -/
def recordedTable : List (Bytes × Hash) :=
  [(depositCall.leafInput, depositLeaf), (chargeCall.leafInput, chargeLeaf),
    (depositBytes, depositDigest), (chargeBytes, chargeDigest),
    (pairBytes (depositDigest, chargeDigest), recordedDigest)]

/-- `blake3` on these byte strings. -/
def blake3Recorded : HashFn :=
  tabulated recordedTable

theorem nodup_recordedInputs : (recordedTable.map Prod.fst).Nodup := by
  decide +kernel

theorem blake3Recorded_injOn :
    Set.InjOn blake3Recorded {b | b ∈ recordedTable.map Prod.fst} :=
  tabulated_injOn nodup_recordedInputs (by decide)

theorem blake3Recorded_of_mem {b : Bytes} {h : Hash} (hmem : (b, h) ∈ recordedTable) :
    blake3Recorded b = h :=
  tabulated_of_mem nodup_recordedInputs hmem

/-- The leaves of the two entries. -/
theorem entry_blake3Recorded :
    depositCall.entry .lowercase blake3Recorded =
        depositCall.entry .lowercase (fun _ => depositLeaf) ∧
      chargeCall.entry .lowercase blake3Recorded =
        chargeCall.entry .lowercase (fun _ => chargeLeaf) := by
  have hdeposit : blake3Recorded depositCall.leafInput = depositLeaf :=
    blake3Recorded_of_mem (by simp [recordedTable])
  have hcharge : blake3Recorded chargeCall.leafInput = chargeLeaf :=
    blake3Recorded_of_mem (by simp [recordedTable])
  simp only [RecordCall.entry, hdeposit, hcharge, and_self]

theorem hashedInputs_one {text : String} (h : t.rootTexts = [text]) :
    t.hashedInputs blake3 = [utf8 text] := by
  simp [hashedInputs, rootInputs, rootHashes, h]

theorem hashedInputs_two {text₁ text₂ : String} (h : t.rootTexts = [text₁, text₂]) :
    t.hashedInputs blake3 =
      [utf8 text₁, utf8 text₂, pairBytes (blake3 (utf8 text₁), blake3 (utf8 text₂))] := by
  simp [hashedInputs, rootInputs, rootHashes, h, PairTree.joined_of_one_lt]

/-- The deposit and the charge are recorded in a new ledger, and no two byte strings
hashed for the two roots collide. -/
theorem exists_recorded : ∃ t₁ t₂,
    empty.recordEntry .lowercase blake3Recorded depositCall = .ok (t₁, 1) ∧
      t₁.recordEntry .lowercase blake3Recorded chargeCall = .ok (t₂, 2) ∧
      Set.InjOn blake3Recorded
        {b | b ∈ t₁.hashedInputs blake3Recorded ∨ b ∈ t₂.hashedInputs blake3Recorded} := by
  obtain ⟨hdeposit, hcharge⟩ := entry_blake3Recorded
  obtain ⟨t₁, hrec₁, hrows₁⟩ := @insertEntry_ok empty
    (depositCall.entry .lowercase blake3Recorded) (by simp [empty]) (by simp [empty])
  have hone : t₁.rows = rowsOf 1 [depositCall.entry .lowercase blake3Recorded] := by
    simpa [empty] using hrows₁
  obtain ⟨t₂, hrec₂, hrows₂⟩ := @insertEntry_ok t₁
    (chargeCall.entry .lowercase blake3Recorded)
    (by rw [hone]; decide) (by rw [hone]; decide)
  have htwo : t₂.rows = rowsOf 1 [depositCall.entry .lowercase blake3Recorded,
      chargeCall.entry .lowercase blake3Recorded] := by
    rw [hrows₂, hone]
    rfl
  refine ⟨t₁, t₂, hrec₁, by rw [hone] at hrec₂; exact hrec₂, ?_⟩
  rw [hdeposit] at hone htwo
  rw [hcharge] at htwo
  have hinputs₁ : t₁.hashedInputs blake3Recorded = [depositBytes] := by
    refine hashedInputs_one ?_
    rw [rootTexts_eq, hone]
    rfl
  have hinputs₂ : t₂.hashedInputs blake3Recorded =
      [depositBytes, chargeBytes, pairBytes (depositDigest, chargeDigest)] := by
    rw [← @blake3Recorded_of_mem depositBytes depositDigest (by simp [recordedTable]),
      ← @blake3Recorded_of_mem chargeBytes chargeDigest (by simp [recordedTable])]
    refine hashedInputs_two ?_
    rw [rootTexts_eq, htwo]
    rfl
  refine blake3Recorded_injOn.mono fun b hb => ?_
  rw [hinputs₁, hinputs₂] at hb
  simp only [Set.mem_ofPred_eq, List.mem_cons, List.not_mem_nil, or_false] at hb
  rcases hb with rfl | rfl | rfl | rfl <;> simp [recordedTable]

theorem record_changes_root_iff_charge : ∃ t₁ t₂ : LedgerEntries,
    t₁.recordEntry .lowercase blake3Recorded chargeCall = .ok (t₂, 2) ∧
      (t₂.computeMerkleRoot .lowercase blake3Recorded ≠
          t₁.computeMerkleRoot .lowercase blake3Recorded ↔
        t₁.rows.length < rootLimit) := by
  obtain ⟨t₁, t₂, -, hrec, hinj⟩ := exists_recorded
  exact ⟨t₁, t₂, hrec, record_changes_root_iff .lowercase blake3Recorded hrec hinj⟩

/-! ### A ledger too long for its root -/

/-- Distinct digests, as many as four bytes count. -/
theorem exists_digests {n : ℕ} (hn : n ≤ 2 ^ 32) :
    ∃ pool : List Hash, pool.Nodup ∧ pool.length = n := by
  have hsize : ∀ i, (toBeBytes i ++ List.replicate 28 0).length = 32 := fun i => by simp
  refine ⟨(List.range n).map fun i => ⟨toBeBytes i ++ List.replicate 28 0, hsize i⟩, ?_, ?_⟩
  · refine List.nodup_range.map_on fun i hi j hj hij => ?_
    rw [List.mem_range] at hi hj
    have hbytes := List.append_cancel_right (congrArg Hash.bytes hij)
    exact toBeBytes_inj (by omega) (by omega) hbytes
  · rw [List.length_map, List.length_range]

/-- A hash function that tells some inputs apart can be changed elsewhere into one that also
tells apart what is hashed for the root of a ledger: first the texts, then the pairs of
digests, round by round. -/
theorem exists_injOn_rootInputs {pool : List Hash} {f : HashFn} {S : List Bytes}
    (t : LedgerEntries) (hpool : pool.Nodup)
    (hlen : S.length + 3 * t.rootTexts.length ≤ pool.length)
    (hinj : Set.InjOn f {b | b ∈ S}) :
    ∃ g : HashFn, (∀ b ∈ S, g b = f b) ∧ Set.InjOn g {b | b ∈ S ++ t.rootInputs g} := by
  obtain ⟨f', hf', hinj'⟩ := CollisionFree.exists_injOn_append (t.rootTexts.map utf8) hpool
    (by rw [List.length_map]; omega) hinj
  obtain ⟨g, hg, hginj⟩ := CollisionFree.exists_injOn_joined pairBytes
    (l := t.rootTexts.map fun text => f' (utf8 text)) hpool
    (by rw [List.length_append, List.length_map, List.length_map]; omega) hinj'
  have hhashes : t.rootHashes g = t.rootTexts.map fun text => f' (utf8 text) :=
    List.map_congr_left fun text htext =>
      hg _ (List.mem_append_right _ (List.mem_map_of_mem htext))
  refine ⟨g, fun b hb => ?_, ?_⟩
  · rw [hg b (List.mem_append_left _ hb), hf' b hb]
  · rw [rootInputs, hhashes, ← List.append_assoc]
    exact hginj

/-- **A hash function for any ledger**: whatever is recorded, some hash function tells
apart the byte strings hashed for the leaves and for the root. -/
theorem exists_collisionFree (hex : HexCodec) {calls : List RecordCall} (last : RecordCall)
    (hids : (calls.map RecordCall.id).Nodup) (hlen : calls.length ≤ 2 ^ 29) :
    ∃ (blake3 : HashFn) (t : LedgerEntries), empty.recordAll hex blake3 calls = .ok t ∧
      t.rows = rowsOf 1 (calls.map (RecordCall.entry hex blake3)) ∧
      Set.InjOn blake3 {b | b ∈ (calls ++ [last]).map RecordCall.leafInput ++
        t.rootInputs blake3} := by
  obtain ⟨pool, hpool, hcount⟩ := exists_digests (n := 2 ^ 32) le_rfl
  obtain ⟨leaves, hdef⟩ : ∃ leaves, (calls ++ [last]).map RecordCall.leafInput = leaves :=
    ⟨_, rfl⟩
  have hleaves : leaves.length = calls.length + 1 := by simp [← hdef]
  -- the leaves are hashed while the entries are recorded, all other inputs later
  obtain ⟨f, -, hf⟩ := CollisionFree.exists_injOn_append (f := tabulated []) (S := []) leaves
    hpool (by rw [List.length_nil]; omega) (by simp)
  rw [List.nil_append] at hf
  obtain ⟨t, hall, hrows⟩ := @insertAll_ok empty (calls.map (RecordCall.entry hex f))
    (by rw [map_id_entry]; simpa [empty] using hids)
    (by rw [List.length_map]; simp only [empty, List.length_nil]; omega)
  have htexts : t.rootTexts.length ≤ calls.length := by
    rw [rootTexts_eq, List.length_map, List.length_take, hrows]
    simp [empty, length_rowsOf]
  obtain ⟨g, hg, hinj⟩ := exists_injOn_rootInputs t hpool (by omega) hf
  have hentries : calls.map (RecordCall.entry hex g) = calls.map (RecordCall.entry hex f) := by
    refine List.map_congr_left fun c hc => ?_
    have hmem : c.leafInput ∈ leaves := by
      rw [← hdef]
      exact List.mem_map_of_mem (List.mem_append_left _ hc)
    rw [RecordCall.entry, RecordCall.entry, hg _ hmem]
  refine ⟨g, t, ?_, ?_, ?_⟩
  · rw [recordAll_eq, hentries, hall]
  · rw [hentries, hrows]
    rfl
  · rwa [hdef]

/-- The random id of the call number `i`. -/
def callId (i : ℕ) : String :=
  "00000000-0000-4000-8000-0000" ++ HexCodec.lowercase.encode (toBeBytes i)

theorem callId_inj {i j : ℕ} (hi : i < 2 ^ 32) (hj : j < 2 ^ 32) (h : callId i = callId j) :
    i = j :=
  toBeBytes_inj hi hj (HexCodec.lowercase.encode_injective ((String.append_right_inj _).mp h))

/-- One charge, recorded under the id number `i`. -/
def callOf (i : ℕ) : RecordCall :=
  { chargeCall with id := callId i }

theorem nodup_callIds {n : ℕ} (hn : n ≤ 2 ^ 32) :
    (((List.range n).map callOf).map RecordCall.id).Nodup := by
  rw [List.map_map]
  refine List.nodup_range.map_on fun i hi j hj hij => ?_
  rw [List.mem_range] at hi hj
  exact callId_inj (by omega) (by omega) hij

/-- A full ledger exists, and one more entry is recorded in it, under a hash function that
tells apart everything that is hashed. -/
theorem exists_full_ledger : ∃ (blake3 : HashFn) (calls : List RecordCall) (c : RecordCall)
    (t t' : LedgerEntries) (seq : ℕ),
    empty.recordAll .lowercase blake3 calls = .ok t ∧
      t.recordEntry .lowercase blake3 c = .ok (t', seq) ∧ t.rows.length = rootLimit ∧
      Set.InjOn blake3
        {b | b ∈ (calls ++ [c]).map RecordCall.leafInput ++ t.rootInputs blake3} := by
  have hlimit : rootLimit < 2 ^ 29 := by decide
  obtain ⟨blake3, t, hrec, hrows, hinj⟩ := @exists_collisionFree .lowercase
    ((List.range rootLimit).map callOf) (callOf rootLimit) (nodup_callIds (by omega))
    (by simpa using hlimit.le)
  have hlen : t.rows.length = rootLimit := by
    rw [hrows, length_rowsOf]
    simp
  have hnew : callId rootLimit ∉ t.rows.map fun r => r.id := by
    rw [hrows, ids_rowsOf, map_id_entry, List.map_map]
    intro hmem
    obtain ⟨i, hi, heq⟩ := List.mem_map.mp hmem
    rw [List.mem_range] at hi
    have hsame := callId_inj (by omega) (by omega) heq
    omega
  obtain ⟨t', hone, -⟩ := @insertEntry_ok t
    ((callOf rootLimit).entry .lowercase blake3) hnew (by rw [hlen]; decide)
  exact ⟨blake3, _, callOf rootLimit, t, t', _, hrec, hone, hlen, hinj⟩

/-- A ledger of `rootLimit` entries has the root it had after one more is recorded. -/
theorem full_ledger_hides_record :
    ¬ ∀ (blake3 : HashFn) (calls : List RecordCall) (c : RecordCall) (t t' : LedgerEntries)
        (seq : ℕ), empty.recordAll .lowercase blake3 calls = .ok t →
      t.recordEntry .lowercase blake3 c = .ok (t', seq) →
      (∀ r ∈ t.rows, ∀ r' ∈ t'.rows, r'.seq = seq → r'.toValue.toText ≠ r.toValue.toText) →
      Set.InjOn blake3 {b | b ∈ (calls ++ [c]).map RecordCall.leafInput ∨
        b ∈ t.hashedInputs blake3 ∨ b ∈ t'.hashedInputs blake3} →
      t'.computeMerkleRoot .lowercase blake3 ≠ t.computeMerkleRoot .lowercase blake3 := by
  intro hall
  obtain ⟨blake3, calls, c, t, t', seq, hrec, hone, hlen, hinj⟩ := exists_full_ledger
  have htexts : t'.rootTexts = t.rootTexts :=
    (rootTexts_append (insertEntry_eq_ok hone).1).mpr hlen.ge
  have hinputs : t.hashedInputs blake3 = t.rootInputs blake3 := by
    refine if_neg ?_
    rw [rootTexts_eq, List.map_eq_nil_iff, List.take_eq_nil_iff, ← List.length_eq_zero_iff, hlen]
    decide
  refine hall blake3 calls c t t' seq hrec hone (text_ne_of_record hone) (hinj.mono ?_)
    (computeMerkleRoot_congr _ _ htexts)
  rw [hashedInputs_congr blake3 htexts, hinputs]
  rintro b (hb | hb | hb)
  · exact List.mem_append_left _ hb
  · exact List.mem_append_right _ hb
  · exact List.mem_append_right _ hb

end LedgerEntries

end VaultKeeper
