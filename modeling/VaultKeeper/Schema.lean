import Mathlib.Data.List.Nodup
import Mathlib.Data.List.Range
import VaultKeeper.Json

/-!
# The Ledger Table

`ledger/src/schema.rs`: the table `ledger_entries` and the statements run on it. SQLite is
taken at its documentation: `AUTOINCREMENT` numbers a new row with one more than the
largest number used so far and fails when that is `2^63 - 1`, and a second row with the
`id` of another is refused. No statement deletes a row, so the numbers are `1, 2, ..` in
the order of insertion, which is the order the rows are kept in; `LedgerEntries` carries
these facts.

## Main results

* `LedgerEntries.getLatestSeq_eq`: the latest number is the count of the rows.
* `LedgerEntries.insertAll_ok`: entries with new ids are inserted and numbered in order.
* `Row.text_injective`: rows with one number and one text are the same entry.
-/

namespace VaultKeeper

/-- The columns of a row that `insert_entry` is given. -/
structure Entry where
  id : String
  entryType : String
  accountId : String
  amount : String
  balanceAfter : String
  timestamp : String
  merkleLeaf : String
deriving DecidableEq

/-- A row of `ledger_entries`. -/
structure Row extends Entry where
  seq : ℕ
  synced : Bool
deriving DecidableEq

/-- The fields of the JSON object a row is read as, in the order of the keys. -/
def Row.fields (r : Row) : List (String × Value) :=
  [("account_id", .string r.accountId), ("amount", .string r.amount),
    ("balance_after", .string r.balanceAfter), ("entry_type", .string r.entryType),
    ("id", .string r.id), ("merkle_leaf", .string r.merkleLeaf),
    ("seq", .number (.int r.seq)), ("timestamp", .string r.timestamp)]

/-- The JSON object a row is read as. -/
def Row.toValue (r : Row) : Value :=
  .object r.fields

/-- The table `ledger_entries`. -/
structure LedgerEntries where
  rows : List Row
  seqs : rows.map Row.seq = List.range' 1 rows.length
  ids : (rows.map fun r => r.id).Nodup
  size : rows.length < 2 ^ 63

/-- The errors of an insertion. -/
inductive SqlError
  | full
  | uniqueViolation
deriving DecidableEq

namespace LedgerEntries

/-- The table `init_schema` creates. -/
def empty : LedgerEntries where
  rows := []
  seqs := rfl
  ids := List.nodup_nil
  size := by decide

/-- `SELECT COALESCE(MAX(seq), 0)`. -/
def getLatestSeq (t : LedgerEntries) : ℕ :=
  (t.rows.map Row.seq).foldl max 0

/-- `SELECT .. WHERE seq > from_seq ORDER BY seq ASC LIMIT limit`. -/
def getEntriesFrom (t : LedgerEntries) (fromSeq : ℤ) (limit : ℕ) : List Value :=
  ((t.rows.filter fun r => fromSeq < (r.seq : ℤ)).take limit).map Row.toValue

/-- `SELECT .. WHERE synced = 0 ORDER BY seq ASC`. -/
def getUnsyncedEntries (t : LedgerEntries) : List Value :=
  (t.rows.filter fun r => !r.synced).map Row.toValue

/-- The latest number is the count of the rows. -/
theorem getLatestSeq_eq (t : LedgerEntries) : t.getLatestSeq = t.rows.length := by
  have hmax : ∀ n, (List.range' 1 n).foldl max 0 = n := by
    intro n
    induction n with
    | zero => rfl
    | succ n ih =>
        rw [List.range'_concat, List.foldl_append, ih]
        simp only [List.foldl_cons, List.foldl_nil]
        omega
  rw [getLatestSeq, t.seqs, hmax]

/-- A new row after the others, with the next number. -/
def append (t : LedgerEntries) (e : Entry) (hid : e.id ∉ t.rows.map fun r => r.id)
    (hsize : t.getLatestSeq + 1 < 2 ^ 63) : LedgerEntries where
  rows := t.rows ++ [{ e with seq := t.getLatestSeq + 1, synced := false }]
  seqs := by
    rw [List.map_append, t.seqs, List.length_append, List.length_singleton,
      List.range'_concat, t.getLatestSeq_eq, List.map_singleton, Nat.one_mul, Nat.add_comm 1]
  ids := by
    rw [List.map_append]
    exact t.ids.append (List.nodup_singleton _) (by simpa using hid)
  size := by
    rw [t.getLatestSeq_eq] at hsize
    simpa using hsize

/-- Insert a new ledger entry and return its sequence number. -/
def insertEntry (t : LedgerEntries) (e : Entry) : Except SqlError (LedgerEntries × ℕ) :=
  if hsize : t.getLatestSeq + 1 < 2 ^ 63 then
    if hid : e.id ∈ t.rows.map fun r => r.id then .error .uniqueViolation
    else .ok (t.append e hid hsize, t.getLatestSeq + 1)
  else .error .full

/-- `UPDATE .. SET synced = 1 WHERE seq <= up_to_seq AND synced = 0`. -/
def markSynced (t : LedgerEntries) (upToSeq : ℤ) : LedgerEntries where
  rows := t.rows.map fun r =>
    if (r.seq : ℤ) ≤ upToSeq ∧ r.synced = false then { r with synced := true } else r
  seqs := by
    rw [List.map_map, List.length_map, ← t.seqs]
    refine List.map_congr_left fun r _ => ?_
    simp only [Function.comp_apply]
    split <;> rfl
  ids := by
    have hkeep : (t.rows.map fun r =>
        if (r.seq : ℤ) ≤ upToSeq ∧ r.synced = false then { r with synced := true }
        else r).map (fun r => r.id) = t.rows.map fun r => r.id := by
      rw [List.map_map]
      refine List.map_congr_left fun r _ => ?_
      simp only [Function.comp_apply]
      split <;> rfl
    rw [hkeep]
    exact t.ids
  size := by simpa using t.size

/-- Insert entries in order; the first error ends it. -/
def insertAll (t : LedgerEntries) (es : List Entry) : Except SqlError LedgerEntries :=
  es.foldlM (fun t e => Prod.fst <$> t.insertEntry e) t

/-- The rows of entries inserted in order, the first with the given number. -/
def rowsOf (n : ℕ) : List Entry → List Row
  | [] => []
  | e :: es => { e with seq := n, synced := false } :: rowsOf (n + 1) es

/-- An entry with a new id is inserted while numbers are left. -/
theorem insertEntry_ok {t : LedgerEntries} {e : Entry}
    (hid : e.id ∉ t.rows.map fun r => r.id) (hsize : t.rows.length + 1 < 2 ^ 63) :
    ∃ t', t.insertEntry e = .ok (t', t.rows.length + 1) ∧
      t'.rows = t.rows ++ rowsOf (t.rows.length + 1) [e] := by
  have hnext : t.getLatestSeq + 1 < 2 ^ 63 := by rwa [t.getLatestSeq_eq]
  refine ⟨t.append e hid hnext, ?_, ?_⟩
  · rw [insertEntry, dif_pos hnext, dif_neg hid, t.getLatestSeq_eq]
  · simp [append, rowsOf, t.getLatestSeq_eq]

/-- What an insertion that succeeds does: one more row, numbered with the count. -/
theorem insertEntry_eq_ok {t t' : LedgerEntries} {e : Entry} {seq : ℕ}
    (h : t.insertEntry e = .ok (t', seq)) :
    t'.rows = t.rows ++ rowsOf (t.rows.length + 1) [e] ∧ seq = t.rows.length + 1 := by
  rw [insertEntry] at h
  split at h
  · split at h
    · exact absurd h (by simp)
    · simp only [Except.ok.injEq, Prod.mk.injEq] at h
      obtain ⟨rfl, rfl⟩ := h
      exact ⟨by simp [append, rowsOf, t.getLatestSeq_eq], t.getLatestSeq_eq ▸ rfl⟩
  · exact absurd h (by simp)

/-- Entries with new and distinct ids are inserted in order while numbers are left. -/
theorem insertAll_ok {t : LedgerEntries} {es : List Entry}
    (hids : ((t.rows.map fun r => r.id) ++ es.map Entry.id).Nodup)
    (hsize : t.rows.length + es.length < 2 ^ 63) :
    ∃ t', t.insertAll es = .ok t' ∧ t'.rows = t.rows ++ rowsOf (t.rows.length + 1) es := by
  induction es generalizing t with
  | nil => exact ⟨t, rfl, by simp [rowsOf]⟩
  | cons e es ih =>
      have hnew : e.id ∉ t.rows.map fun r => r.id := by
        intro hmem
        exact List.disjoint_of_nodup_append hids hmem (by simp)
      have hlen : t.rows.length + 1 < 2 ^ 63 := by
        rw [List.length_cons] at hsize
        omega
      obtain ⟨t₁, hins, hrows⟩ := insertEntry_ok hnew hlen
      obtain ⟨t₂, hall, hrows₂⟩ := @ih t₁
        (by simpa [hrows, rowsOf] using hids)
        (by simp only [hrows, rowsOf, List.length_append, List.length_cons] at hsize ⊢
            simp only [List.length_nil]
            omega)
      refine ⟨t₂, ?_, ?_⟩
      · simp only [insertAll, List.foldlM_cons, hins]
        exact hall
      · simp [hrows₂, hrows, rowsOf]

/-- The row at index `i` has number `i + 1`. -/
theorem seq_of_getElem? {t : LedgerEntries} {i : ℕ} {r : Row} (h : t.rows[i]? = some r) :
    r.seq = i + 1 := by
  have hmap : (t.rows.map Row.seq)[i]? = some r.seq := by rw [List.getElem?_map, h]; rfl
  rw [t.seqs] at hmap
  obtain ⟨_, hseq⟩ := List.getElem?_eq_some_iff.mp hmap
  rw [List.getElem_range'] at hseq
  omega

theorem seq_le_of_mem {t : LedgerEntries} {r : Row} (h : r ∈ t.rows) :
    r.seq ≤ t.rows.length := by
  obtain ⟨i, hi⟩ := List.mem_iff_getElem?.mp h
  rw [seq_of_getElem? hi]
  exact (List.getElem?_eq_some_iff.mp hi).1

/-- The rows numbered above `k` are the rows after the first `k`. -/
theorem filter_seq_eq_drop (t : LedgerEntries) (k : ℕ) :
    (t.rows.filter fun r => (k : ℤ) < (r.seq : ℤ)) = t.rows.drop k := by
  have hfront : ((t.rows.take k).filter fun r => (k : ℤ) < (r.seq : ℤ)) = [] := by
    rw [List.filter_eq_nil_iff]
    intro r hr
    obtain ⟨i, hi⟩ := List.mem_iff_getElem?.mp hr
    rw [List.getElem?_take, Option.ite_none_right_eq_some] at hi
    have hseq := seq_of_getElem? hi.2
    simp only [decide_eq_true_eq]
    omega
  have hback : ((t.rows.drop k).filter fun r => (k : ℤ) < (r.seq : ℤ)) = t.rows.drop k := by
    rw [List.filter_eq_self]
    intro r hr
    obtain ⟨i, hi⟩ := List.mem_iff_getElem?.mp hr
    rw [List.getElem?_drop] at hi
    have hseq := seq_of_getElem? hi
    simp only [decide_eq_true_eq]
    omega
  conv_lhs => rw [← List.take_append_drop k t.rows, List.filter_append, hfront, hback]
  rfl

/-- A query from number `k` reads the rows after the first `k`. -/
theorem getEntriesFrom_natCast (t : LedgerEntries) (k limit : ℕ) :
    t.getEntriesFrom k limit = ((t.rows.drop k).take limit).map Row.toValue := by
  rw [getEntriesFrom, filter_seq_eq_drop]

end LedgerEntries

/-- Rows with one number and one text are the same entry. -/
theorem Row.text_injective {r s : Row} (hseq : r.seq = s.seq)
    (h : r.toValue.toText = s.toValue.toText) : r.toEntry = s.toEntry := by
  have hvalues : List.Forall₂ (fun f g => f.1 = g.1 ∧ ToldApart f.2 g.2) r.fields s.fields := by
    simp [Row.fields, toldApart_string, toldApart_self, hseq]
  have htexts : Value.fieldsText r.fields ++ "\x7d" = Value.fieldsText s.fields ++ "\x7d" := by
    simpa only [Row.toValue, Value.toText, String.append_assoc, String.append_right_inj] using h
  obtain ⟨hfields, -⟩ := fieldsText_append_inj hvalues htexts
  obtain ⟨⟨_, _, _, _, _, _, _⟩, _, _⟩ := r
  obtain ⟨⟨_, _, _, _, _, _, _⟩, _, _⟩ := s
  simp only [Row.fields, List.cons.injEq, Prod.mk.injEq, Value.string.injEq, true_and] at hfields
  obtain ⟨rfl, rfl, rfl, rfl, rfl, rfl, -, rfl, -⟩ := hfields
  rfl

end VaultKeeper
