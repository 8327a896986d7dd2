import VaultKeeper.PrefixCode
import VaultKeeper.Recording
import VaultKeeper.Timestamp

/-!
# What the Leaf of an Entry Says

`ledger/src/store.rs`: the leaf of an entry is the hash of its id, type, amount and time, joined
by colons. The account and the balance are not among them, and a type or an amount may contain a
colon itself, so that one leaf stands for every entry with the same joined text. The time stands
last, in a text with three colons, and so it can be read off the joined text.

## Main results

* `RecordCall.leafInput_inj`: the hashed bytes determine the id and the text after it.
* `RecordCall.leafRest_eq_iff`: which determines the time, among times of one number of colons.
* `RecordCall.leafRest_inj`: and all its fields when type and amount have no colon.
* `RecordCall.merkleLeaf_eq_iff`: these for the leaves, when the hashed bytes do not collide.
-/

namespace VaultKeeper

namespace LedgerEntries

/-- The joined text of a leaf after the id. -/
def RecordCall.leafRest (c : RecordCall) : String :=
  c.entryType ++ ":" ++ c.amount ++ ":" ++ c.timestamp

/-- A text in front of a colon that has none itself is told apart together with what follows. -/
theorem append_colon_inj {a b x y : String} (ha : ':' ∉ a.toList) (hb : ':' ∉ b.toList)
    (h : a ++ (":" ++ x) = b ++ (":" ++ y)) : a = b ∧ x = y := by
  have hlist := congrArg String.toList h
  simp only [String.toList_append] at hlist
  obtain ⟨hab, hxy⟩ := PrefixCode.append_stop_inj ha hb hlist
  exact ⟨String.toList_inj.mp hab, String.toList_inj.mp hxy⟩

/-- **The hashed bytes** determine the id and the joined text after it. -/
theorem RecordCall.leafInput_inj {c d : RecordCall} (hc : ':' ∉ c.id.toList)
    (hd : ':' ∉ d.id.toList) :
    c.leafInput = d.leafInput ↔ c.id = d.id ∧ c.leafRest = d.leafRest := by
  have hsplit : ∀ e : RecordCall, e.leafInput = utf8 (e.id ++ (":" ++ e.leafRest)) := by
    intro e
    simp only [leafInput, leafRest, String.append_assoc]
  rw [hsplit, hsplit]
  constructor
  · exact fun h => append_colon_inj hc hd (utf8_injective h)
  · rintro ⟨hid, hrest⟩
    rw [hid, hrest]

/-- The type and the amount of a leaf, joined. -/
def RecordCall.leafTypeAmount (c : RecordCall) : String :=
  c.entryType ++ ":" ++ c.amount

/-- **The joined text** determines the time, and type and amount joined, when both times have as
many colons. -/
theorem RecordCall.leafRest_eq_iff {c d : RecordCall}
    (hcount : c.timestamp.toList.count ':' = d.timestamp.toList.count ':') :
    c.leafRest = d.leafRest ↔
      c.leafTypeAmount = d.leafTypeAmount ∧ c.timestamp = d.timestamp := by
  have hsplit : ∀ e : RecordCall, e.leafRest = e.leafTypeAmount ++ (":" ++ e.timestamp) := by
    intro e
    simp only [leafRest, leafTypeAmount, String.append_assoc]
  rw [hsplit, hsplit]
  constructor
  · intro h
    have hlist := congrArg String.toList h
    simp only [String.toList_append] at hlist
    obtain ⟨htexts, htime⟩ := PrefixCode.append_stop_inj_of_count hcount hlist
    exact ⟨String.toList_inj.mp htexts, String.toList_inj.mp htime⟩
  · rintro ⟨htexts, htime⟩
    rw [htexts, htime]

/-- Without colons in type and amount, the joined text determines its fields. -/
theorem RecordCall.leafRest_inj {c d : RecordCall} (hctype : ':' ∉ c.entryType.toList)
    (hcamount : ':' ∉ c.amount.toList) (hdtype : ':' ∉ d.entryType.toList)
    (hdamount : ':' ∉ d.amount.toList) (h : c.leafRest = d.leafRest) :
    c.entryType = d.entryType ∧ c.amount = d.amount ∧ c.timestamp = d.timestamp := by
  simp only [leafRest, String.append_assoc] at h
  obtain ⟨htype, hamounts⟩ := append_colon_inj hctype hdtype h
  obtain ⟨hamount, htime⟩ := append_colon_inj hcamount hdamount hamounts
  exact ⟨htype, hamount, htime⟩

/-- **What a leaf says**: the leaves of two entries are equal exactly when their ids and their
joined texts of type, amount and time are, unless their preimages collide. For times written by
`to_rfc3339` this means equal ids, equal times and equal texts of type and amount; without colons
in types and amounts, types, amounts and times are equal. -/
theorem RecordCall.merkleLeaf_eq_iff (hex : HexCodec) (blake3 : HashFn) (c d : RecordCall)
    (hc : ':' ∉ c.id.toList) (hd : ':' ∉ d.id.toList)
    (hinj : Set.InjOn blake3 {b | b = c.leafInput ∨ b = d.leafInput}) :
    ((c.entry hex blake3).merkleLeaf = (d.entry hex blake3).merkleLeaf ↔
      c.id = d.id ∧ c.leafRest = d.leafRest) ∧
    (∀ t u : UtcDateTime, c.timestamp = t.toRfc3339 → d.timestamp = u.toRfc3339 →
      ((c.entry hex blake3).merkleLeaf = (d.entry hex blake3).merkleLeaf ↔
        c.id = d.id ∧ c.leafTypeAmount = d.leafTypeAmount ∧ c.timestamp = d.timestamp)) ∧
    (':' ∉ c.entryType.toList → ':' ∉ c.amount.toList → ':' ∉ d.entryType.toList →
      ':' ∉ d.amount.toList → (c.entry hex blake3).merkleLeaf = (d.entry hex blake3).merkleLeaf →
        c.id = d.id ∧ c.entryType = d.entryType ∧ c.amount = d.amount ∧
          c.timestamp = d.timestamp) := by
  have hleaf : (c.entry hex blake3).merkleLeaf = (d.entry hex blake3).merkleLeaf ↔
      c.id = d.id ∧ c.leafRest = d.leafRest := by
    rw [← RecordCall.leafInput_inj hc hd]
    constructor
    · intro h
      exact hinj (Or.inl rfl) (Or.inr rfl) (Hash.ext (hex.encode_injective h))
    · intro h
      simp only [entry, h]
  refine ⟨hleaf, fun t u ht hu => ?_, fun hctype hcamount hdtype hdamount h => ?_⟩
  · have hcount : c.timestamp.toList.count ':' = d.timestamp.toList.count ':' := by
      rw [ht, hu, t.count_colon_toRfc3339, u.count_colon_toRfc3339]
    rw [hleaf, RecordCall.leafRest_eq_iff hcount]
  · obtain ⟨hid, hrest⟩ := hleaf.mp h
    exact ⟨hid, RecordCall.leafRest_inj hctype hcamount hdtype hdamount hrest⟩

theorem RecordCall.merkleLeaf_eq_iff_recorded :
    (depositCall.entry .lowercase blake3Recorded).merkleLeaf =
        (chargeCall.entry .lowercase blake3Recorded).merkleLeaf ↔
      depositCall.id = chargeCall.id ∧ depositCall.leafRest = chargeCall.leafRest := by
  refine (RecordCall.merkleLeaf_eq_iff .lowercase blake3Recorded depositCall chargeCall
    (by decide) (by decide) (blake3Recorded_injOn.mono ?_)).1
  rintro b (rfl | rfl)
  · exact List.mem_cons_self ..
  · exact List.mem_cons_of_mem _ (List.mem_cons_self ..)

/-- Two entries with one preimage have one leaf, and nothing collides. -/
theorem RecordCall.merkleLeaf_eq_of_leafInput_eq {hex : HexCodec} {blake3 : HashFn}
    {c d : RecordCall} (h : c.leafInput = d.leafInput) :
    Set.InjOn blake3 {b | b = c.leafInput ∨ b = d.leafInput} ∧
      (c.entry hex blake3).merkleLeaf = (d.entry hex blake3).merkleLeaf := by
  refine ⟨?_, by simp only [entry, h]⟩
  rintro x (rfl | rfl) y (rfl | rfl) -
  · rfl
  · exact h
  · exact h.symm
  · rfl

/-- The deposit on another account and with another balance has the deposit's leaf; and a deposit
of an amount with a colon has the leaf of one whose type takes the text in front of it. -/
theorem leaf_of_other_entries :
    ¬ (∀ c d : RecordCall, c.id.length = 36 → ':' ∉ c.id.toList → d.id.length = 36 →
      ':' ∉ d.id.toList → Set.InjOn blake3Recorded {b | b = c.leafInput ∨ b = d.leafInput} →
      (c.entry .lowercase blake3Recorded).merkleLeaf =
        (d.entry .lowercase blake3Recorded).merkleLeaf →
      c.accountId = d.accountId ∧ c.balanceAfter = d.balanceAfter) ∧
    ¬ (∀ c d : RecordCall, c.id.length = 36 → ':' ∉ c.id.toList → d.id.length = 36 →
      ':' ∉ d.id.toList → Set.InjOn blake3Recorded {b | b = c.leafInput ∨ b = d.leafInput} →
      (c.entry .lowercase blake3Recorded).merkleLeaf =
        (d.entry .lowercase blake3Recorded).merkleLeaf →
      c.entryType = d.entryType ∧ c.amount = d.amount) := by
  constructor
  · intro hall
    obtain ⟨hinj, hleaf⟩ := @RecordCall.merkleLeaf_eq_of_leafInput_eq .lowercase blake3Recorded
      depositCall { depositCall with accountId := "acc2", balanceAfter := "900.00" } rfl
    have hsame := hall _ _ (by decide) (by decide) (by decide) (by decide) hinj hleaf
    exact absurd hsame.1 (by decide)
  · intro hall
    obtain ⟨hinj, hleaf⟩ := @RecordCall.merkleLeaf_eq_of_leafInput_eq .lowercase blake3Recorded
      { depositCall with amount := "bonus:100.00" }
      { depositCall with entryType := "deposit:bonus" } (by decide +kernel)
    have hsame := hall _ _ (by decide) (by decide) (by decide) (by decide) hinj hleaf
    exact absurd hsame.1 (by decide)

end LedgerEntries

end VaultKeeper
