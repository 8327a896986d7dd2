import VaultKeeper.Store

/-!
# What the Ledger Root Identifies

`ledger/src/store.rs`: the tree under the root joins a lone last digest with itself and
does not tag leaves, so that in general lists of different lengths share a root. The texts
hashed for a ledger exclude this: the texts of one ledger have distinct ids, and each of
them is longer than the 64 bytes of two digests.

## Main results

* `LedgerEntries.rootTexts_eq_of_root_eq`: ledgers of any sizes with one root hash the same
  texts, unless two hashed byte strings collide.
* `LedgerEntries.root_identifies`: and these texts are of the same entries.
-/

namespace VaultKeeper

/-! ### The text of a row -/

theorem length_utf8_append (s t : String) :
    (utf8 (s ++ t)).length = (utf8 s).length + (utf8 t).length := by
  simp [utf8]

/-- The keys alone make the text of a row longer than two digests. -/
theorem Row.lt_length_text (r : Row) : 64 < (utf8 r.toValue.toText).length := by
  have haccount : (utf8 (quote "account_id")).length = 12 := by decide +kernel
  have hamount : (utf8 (quote "amount")).length = 8 := by decide +kernel
  have hbalance : (utf8 (quote "balance_after")).length = 15 := by decide +kernel
  have htype : (utf8 (quote "entry_type")).length = 12 := by decide +kernel
  have hleaf : (utf8 (quote "merkle_leaf")).length = 13 := by decide +kernel
  have htime : (utf8 (quote "timestamp")).length = 11 := by decide +kernel
  simp only [Row.toValue, Row.fields, Value.toText, Value.fieldsText, length_utf8_append]
  omega

/-- A field that holds a string is determined whatever follows it. -/
theorem field_append_inj {key s t x y : String}
    (h : quote key ++ (":" ++ (quote s ++ ("," ++ x))) =
      quote key ++ (":" ++ (quote t ++ ("," ++ y)))) : s = t ∧ x = y := by
  rw [String.append_right_inj, String.append_right_inj] at h
  obtain ⟨hst, hxy⟩ := quote_append_inj h
  exact ⟨hst, (String.append_right_inj _).mp hxy⟩

/-- The text of a row determines its id; the four fields before it are read off first. -/
theorem Row.id_eq_of_text_eq {r s : Row} (h : r.toValue.toText = s.toValue.toText) :
    r.id = s.id := by
  simp only [Row.toValue, Row.fields, Value.toText, Value.fieldsText, String.append_assoc] at h
  obtain ⟨-, hamount⟩ := field_append_inj ((String.append_right_inj _).mp h)
  obtain ⟨-, hbalance⟩ := field_append_inj hamount
  obtain ⟨-, htype⟩ := field_append_inj hbalance
  obtain ⟨-, hid⟩ := field_append_inj htype
  exact (field_append_inj hid).1

namespace LedgerEntries

variable {hex : HexCodec} {blake3 : HashFn} {t t₁ t₂ : LedgerEntries}

/-! ### The texts of a ledger -/

theorem exists_row_of_mem_rootTexts {text : String} (h : text ∈ t.rootTexts) :
    ∃ r ∈ t.rows, text = r.toValue.toText := by
  rw [rootTexts_eq, List.mem_map] at h
  obtain ⟨r, hr, rfl⟩ := h
  exact ⟨r, List.mem_of_mem_take hr, rfl⟩

theorem lt_length_of_mem_rootTexts {text : String} (h : text ∈ t.rootTexts) :
    64 < (utf8 text).length := by
  obtain ⟨r, -, rfl⟩ := exists_row_of_mem_rootTexts h
  exact r.lt_length_text

/-- The texts of one ledger are distinct, as its ids are. -/
theorem nodup_rootTexts (t : LedgerEntries) : t.rootTexts.Nodup := by
  rw [rootTexts_eq]
  have hids : ((t.rows.take rootLimit).map fun r => r.id).Nodup :=
    t.ids.sublist ((List.take_sublist _ _).map _)
  refine List.Nodup.map_on ?_ (List.Nodup.of_map _ hids)
  intro r hr s hs htext
  exact List.inj_on_of_nodup_map hids hr hs (Row.id_eq_of_text_eq htext)

/-- One list of texts comes from one list of entries: the numbers are the positions. -/
theorem getEntriesFrom_eq_of_rootTexts_eq (h : t₁.rootTexts = t₂.rootTexts) :
    t₁.getEntriesFrom 0 rootLimit = t₂.getEntriesFrom 0 rootLimit := by
  rw [rootTexts_eq, rootTexts_eq] at h
  rw [← Nat.cast_zero, getEntriesFrom_natCast, getEntriesFrom_natCast, List.drop_zero,
    List.drop_zero]
  refine List.ext_getElem? fun i => ?_
  have hi := congrArg (fun texts => texts[i]?) h
  simp only [List.getElem?_map] at hi ⊢
  cases hr : (t₁.rows.take rootLimit)[i]? with
  | none =>
      rw [hr, Option.map_none, eq_comm, Option.map_eq_none_iff] at hi
      rw [hi]
  | some r =>
      rw [hr, Option.map_some, eq_comm, Option.map_eq_some_iff] at hi
      obtain ⟨s, hs, htext⟩ := hi
      rw [hs, Option.map_some, Option.map_some]
      rw [List.getElem?_take, Option.ite_none_right_eq_some] at hr hs
      have hseq : r.seq = s.seq := by rw [seq_of_getElem? hr.2, seq_of_getElem? hs.2]
      obtain ⟨e, _, _⟩ := r
      obtain ⟨f, _, _⟩ := s
      obtain rfl : e = f := Row.text_injective hseq htext.symm
      obtain rfl := hseq
      rfl

/-! ### The hashed byte strings -/

/-- What is hashed for the root of a ledger with entries has 64 bytes at least. -/
theorem le_length_of_mem_rootInputs {b : Bytes} (h : b ∈ t.rootInputs blake3) :
    64 ≤ b.length := by
  rcases mem_rootInputs.mp h with ⟨text, htext, rfl⟩ | ⟨p, -, rfl⟩
  · exact (lt_length_of_mem_rootTexts htext).le
  · exact (length_pairBytes p).ge

/-- The top of the digests is the digest of a text or of a pair. -/
theorem exists_rootInputs_top (hne : t.rootHashes blake3 ≠ []) : ∃ b ∈ t.rootInputs blake3,
    PairTree.top (hashPair blake3) (t.rootHashes blake3) hne = blake3 b := by
  by_cases hlen : 1 < (t.rootHashes blake3).length
  · obtain ⟨p, hp, htop⟩ := PairTree.exists_joined_top (hashPair blake3) hne hlen
    exact ⟨pairBytes p, mem_rootInputs.mpr (Or.inr ⟨p, hp, rfl⟩), htop⟩
  · have hpos := List.length_pos_iff.mpr hne
    rw [rootHashes, List.length_map] at hlen hpos
    obtain ⟨text, htexts⟩ := List.length_eq_one_iff.mp (show t.rootTexts.length = 1 by omega)
    refine ⟨utf8 text, mem_rootInputs.mpr (Or.inl ⟨text, by simp [htexts], rfl⟩), ?_⟩
    simp [rootHashes, htexts]

/-- The root is the digest of a byte string that is hashed for it; only that of a ledger
without entries is shorter than 64 bytes. -/
theorem exists_hashedInputs_root (hex : HexCodec) (blake3 : HashFn) (t : LedgerEntries) :
    ∃ b ∈ t.hashedInputs blake3, t.computeMerkleRoot hex blake3 = hex.encode (blake3 b).bytes ∧
      (64 ≤ b.length ↔ t.rootTexts ≠ []) := by
  by_cases hnone : t.rootTexts = []
  · refine ⟨utf8 "empty", by simp [hashedInputs, hnone], ?_, ?_⟩
    · rw [computeMerkleRoot, dif_pos (by rw [rootHashes, hnone, List.map_nil])]
    · have hshort : (utf8 "empty").length = 5 := by decide +kernel
      rw [hshort]
      simp [hnone]
  · have hne : t.rootHashes blake3 ≠ [] := fun h => hnone (List.map_eq_nil_iff.mp h)
    obtain ⟨b, hb, htop⟩ := exists_rootInputs_top hne
    refine ⟨b, by rwa [hashedInputs, if_neg hnone], ?_, ?_⟩
    · rw [computeMerkleRoot, dif_neg hne, htop]
    · simp [hnone, le_length_of_mem_rootInputs hb]

/-- The digests of the texts are distinct, as the texts are. -/
theorem nodup_rootHashes (hinj : Set.InjOn blake3 {b | b ∈ t.rootInputs blake3}) :
    (t.rootHashes blake3).Nodup := by
  refine t.nodup_rootTexts.map_on fun s hs u hu hsu => utf8_injective ?_
  exact hinj (mem_rootInputs.mpr (Or.inl ⟨s, hs, rfl⟩))
    (mem_rootInputs.mpr (Or.inl ⟨u, hu, rfl⟩)) hsu

/-- No digest of a text is the digest of two digests: the text is longer. -/
theorem apart_rootHashes
    (hinj : Set.InjOn blake3 {b | b ∈ t₁.rootInputs blake3 ∨ b ∈ t₂.rootInputs blake3}) :
    PairTree.Apart (hashPair blake3) (t₁.rootHashes blake3) (t₂.rootHashes blake3) := by
  intro x hx q hq heq
  obtain ⟨text, htext, rfl⟩ := List.mem_map.mp hx
  have hbytes : utf8 text = pairBytes q :=
    hinj (Or.inl (mem_rootInputs.mpr (Or.inl ⟨text, htext, rfl⟩)))
      (Or.inr (mem_rootInputs.mpr (Or.inr ⟨q, hq, rfl⟩))) heq
  have hlong := lt_length_of_mem_rootTexts htext
  rw [hbytes, length_pairBytes] at hlong
  omega

section Binding

variable (hinj : Set.InjOn blake3 {b | b ∈ t₁.hashedInputs blake3 ∨ b ∈ t₂.hashedInputs blake3})
include hinj

/-- A ledger without entries shares its root with no ledger that has some. -/
theorem rootTexts_eq_nil_iff
    (h : t₁.computeMerkleRoot hex blake3 = t₂.computeMerkleRoot hex blake3) :
    t₁.rootTexts = [] ↔ t₂.rootTexts = [] := by
  obtain ⟨b₁, hb₁, hroot₁, hlen₁⟩ := exists_hashedInputs_root hex blake3 t₁
  obtain ⟨b₂, hb₂, hroot₂, hlen₂⟩ := exists_hashedInputs_root hex blake3 t₂
  rw [hroot₁, hroot₂] at h
  obtain rfl := hinj (Or.inl hb₁) (Or.inr hb₂) (Hash.ext (hex.encode_injective h))
  exact not_iff_not.mp (hlen₁.symm.trans hlen₂)

/-- **Binding across sizes**: ledgers with one root hash the same texts, when no two byte
strings hashed for either collide. -/
theorem rootTexts_eq_of_root_eq
    (h : t₁.computeMerkleRoot hex blake3 = t₂.computeMerkleRoot hex blake3) :
    t₁.rootTexts = t₂.rootTexts := by
  by_cases hnone₁ : t₁.rootTexts = []
  · rw [hnone₁, (rootTexts_eq_nil_iff hinj h).mp hnone₁]
  · have hnone₂ : t₂.rootTexts ≠ [] :=
      fun hnone => hnone₁ ((rootTexts_eq_nil_iff hinj h).mpr hnone)
    have hne₁ : t₁.rootHashes blake3 ≠ [] := fun h => hnone₁ (List.map_eq_nil_iff.mp h)
    have hne₂ : t₂.rootHashes blake3 ≠ [] := fun h => hnone₂ (List.map_eq_nil_iff.mp h)
    rw [hashedInputs, hashedInputs, if_neg hnone₁, if_neg hnone₂] at hinj
    rw [computeMerkleRoot, computeMerkleRoot, dif_neg hne₁, dif_neg hne₂] at h
    have hnodup₁ := nodup_rootHashes (hinj.mono fun b hb => Or.inl hb)
    have hnodup₂ := nodup_rootHashes (hinj.mono fun b hb => Or.inr hb)
    refine rootTexts_eq_of_rootHashes_eq hinj ?_
    exact PairTree.top_injOn_of_nodup (hashPair blake3) hne₁ hne₂ hnodup₁ hnodup₂
      (joined_injOn hinj) (apart_rootHashes hinj)
      (apart_rootHashes (hinj.mono fun b hb => Or.symm hb)) (Hash.ext (hex.encode_injective h))

end Binding

/-- **What the root identifies**: two ledgers of any sizes with one root have the same
entries among the first `rootLimit`, when no two byte strings hashed for either collide. -/
theorem root_identifies (hex : HexCodec) (blake3 : HashFn) (t₁ t₂ : LedgerEntries)
    (hinj : Set.InjOn blake3 {b | b ∈ t₁.hashedInputs blake3 ∨ b ∈ t₂.hashedInputs blake3})
    (h : t₁.computeMerkleRoot hex blake3 = t₂.computeMerkleRoot hex blake3) :
    t₁.getEntriesFrom 0 rootLimit = t₂.getEntriesFrom 0 rootLimit :=
  getEntriesFrom_eq_of_rootTexts_eq (rootTexts_eq_of_root_eq hinj h)

/-! ### Roots and texts -/

/-- The Merkle root of entries with these texts, however many they are. -/
def textsRoot (hex : HexCodec) (blake3 : HashFn) (texts : List String) : String :=
  if h : (texts.map fun text => blake3 (utf8 text)) = [] then
    hex.encode (blake3 (utf8 "empty")).bytes
  else hex.encode (PairTree.top (hashPair blake3) _ h).bytes

/-- The root of a ledger is that of the texts of its first `rootLimit` entries. -/
theorem computeMerkleRoot_eq (hex : HexCodec) (blake3 : HashFn) (t : LedgerEntries) :
    t.computeMerkleRoot hex blake3 = textsRoot hex blake3 t.rootTexts := rfl

theorem computeMerkleRoot_congr (hex : HexCodec) (blake3 : HashFn)
    (h : t₁.rootTexts = t₂.rootTexts) :
    t₁.computeMerkleRoot hex blake3 = t₂.computeMerkleRoot hex blake3 := by
  rw [computeMerkleRoot_eq, computeMerkleRoot_eq, h]

theorem hashedInputs_congr (blake3 : HashFn) (h : t₁.rootTexts = t₂.rootTexts) :
    t₁.hashedInputs blake3 = t₂.hashedInputs blake3 := by
  simp only [hashedInputs, rootInputs, rootHashes, h]

/-- Marking entries as synced changes no text. -/
theorem rootTexts_markSynced (t : LedgerEntries) (upToSeq : ℤ) :
    (t.markSynced upToSeq).rootTexts = t.rootTexts := by
  rw [rootTexts_eq, rootTexts_eq, markSynced, ← List.map_take, List.map_map]
  refine List.map_congr_left fun r _ => ?_
  rw [Function.comp_apply]
  split <;> rfl

/-- The byte strings hashed for a ledger of a deposit and a charge. -/
theorem hashedInputs_of_orders {t : LedgerEntries}
    (h : t.rootTexts = (rowsOf 1 [depositEntry, chargeEntry]).map fun r => r.toValue.toText) :
    ∀ b ∈ t.hashedInputs blake3Orders, b ∈ ordersInputs := by
  have hlist : t.hashedInputs blake3Orders = ordersInputs.take 3 := by
    simp only [hashedInputs, rootInputs, rootHashes, h]
    decide +kernel
  intro b hb
  rw [hlist] at hb
  exact List.mem_of_mem_take hb

theorem root_identifies_marked :
    ∃ t, empty.insertAll [depositEntry, chargeEntry] = .ok t ∧
      (t.markSynced 1).getEntriesFrom 0 rootLimit = t.getEntriesFrom 0 rootLimit := by
  obtain ⟨t, hall, -, htexts⟩ :=
    exists_insertAll [depositEntry, chargeEntry] (by decide) (by decide)
  have hmarked := t.rootTexts_markSynced 1
  refine ⟨t, hall, root_identifies .lowercase blake3Orders _ _ ?_ ?_⟩
  · refine blake3Orders_injOn_inputs.mono ?_
    rintro b (hb | hb)
    · rw [hashedInputs_congr _ hmarked] at hb
      exact hashedInputs_of_orders htexts b hb
    · exact hashedInputs_of_orders htexts b hb
  · exact computeMerkleRoot_congr _ _ hmarked

end LedgerEntries

end VaultKeeper
