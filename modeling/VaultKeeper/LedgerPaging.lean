import VaultKeeper.GossipSync
import VaultKeeper.KeysetPaging
import VaultKeeper.Runs

/-!
# Reading a Ledger by Pages

`LedgerStore::get_entries_from` returns at most `pageLimit` entries after a number. A reader
calls it again with the number of the last entry it got, until a page is empty, while other
threads record entries. All that is used of the table is that its numbers increase
(`NumberedEntries`), so that they may have gaps, as `AUTOINCREMENT` is free to leave them.

## Main results

* `LedgerEntries.insertEntry_toNumbered`: the ledger is such a table, and recording is such an
  insertion.
* `PagingState.Tracks.step`: what each page and each insertion keeps.
* `paging_complete`: what has been read when a page is empty.
* `LedgerReader.exists_events`, `LedgerReader.received_eq`: the same for a ledger that entries are
  recorded in.
-/

namespace VaultKeeper

open LedgerEntries

/-- The table `ledger_entries` with numbers that increase in the order of insertion; they are
`INTEGER`s of 64 bits. -/
structure NumberedEntries where
  rows : List Row
  increasing : rows.Pairwise fun r s => r.seq < s.seq
  range : ∀ r ∈ rows, r.seq < 2 ^ 63

namespace NumberedEntries

/-- `SELECT .. WHERE seq > from_seq ORDER BY seq ASC LIMIT limit`. -/
def getEntriesFrom (t : NumberedEntries) (fromSeq : ℤ) (limit : ℕ) : List Value :=
  ((t.rows.filter fun r => fromSeq < (r.seq : ℤ)).take limit).map Row.toValue

/-- `LedgerStore::get_entries_from`. -/
def getPage (t : NumberedEntries) (fromSeq : ℤ) : List Value :=
  t.getEntriesFrom fromSeq pageLimit

/-- All entries after a number, in the order of their numbers. -/
def entriesAfter (t : NumberedEntries) (fromSeq : ℤ) : List Value :=
  (t.rows.filter fun r => fromSeq < (r.seq : ℤ)).map Row.toValue

/-- A new row, under a number that `AUTOINCREMENT` may give it: above all others. -/
def insertEntry (t : NumberedEntries) (e : Entry) (seq : ℕ) : NumberedEntries :=
  if h : (∀ r ∈ t.rows, r.seq < seq) ∧ seq < 2 ^ 63 then
    { rows := t.rows ++ [{ e with seq := seq, synced := false }]
      increasing := by
        rw [List.pairwise_append]
        refine ⟨t.increasing, List.pairwise_singleton _ _, fun r hr s hs => ?_⟩
        rw [List.mem_singleton.mp hs]
        exact h.1 r hr
      range := by
        intro r hr
        rcases List.mem_append.mp hr with hr | hr
        · exact t.range r hr
        · rw [List.mem_singleton.mp hr]
          exact h.2 }
  else t

end NumberedEntries

/-! ### The ledger is such a table -/

/-- The ledger, of whose numbers only the order is known. -/
def LedgerEntries.toNumbered (t : LedgerEntries) : NumberedEntries where
  rows := t.rows
  increasing := t.increasing_key.imp fun h => Int.ofNat_lt.mp h
  range _ hr := (seq_le_of_mem hr).trans_lt t.size

/-- An entry that is inserted has a number that `AUTOINCREMENT` may give it. -/
theorem LedgerEntries.insertEntry_toNumbered {t t' : LedgerEntries} {e : Entry} {seq : ℕ}
    (h : t.insertEntry e = .ok (t', seq)) : t'.toNumbered = t.toNumbered.insertEntry e seq := by
  obtain ⟨hrows, hseq⟩ := insertEntry_eq_ok h
  have hnew : (∀ r ∈ t.toNumbered.rows, r.seq < seq) ∧ seq < 2 ^ 63 := by
    refine ⟨fun r hr => ?_, ?_⟩
    · have hle := seq_le_of_mem (t := t) hr
      omega
    · have hsize := t'.size
      rw [hrows] at hsize
      simpa [rowsOf, hseq] using hsize
  rw [NumberedEntries.insertEntry, dif_pos hnew]
  simp only [toNumbered, hrows, rowsOf, hseq]

/-! ### The reader -/

/-- What happens to a ledger while it is read. -/
inductive PagingEvent
  | insertEntry (e : Entry) (seq : ℕ)
  | getEntriesFrom

/-- The ledger, and a reader: the number it asks from next, and what it has received. -/
structure PagingState where
  table : NumberedEntries
  fromSeq : ℤ
  received : List Value

/-- The page the reader gets. -/
def PagingState.page (s : PagingState) : List Value :=
  s.table.getPage s.fromSeq

/-- One insertion, or one page: the next is asked for from the number of its last entry. -/
def pagingStep (s : PagingState) : PagingEvent → PagingState
  | .insertEntry e seq => { s with table := s.table.insertEntry e seq }
  | .getEntriesFrom =>
      { s with
        fromSeq := (s.page.getLast?.map seqOf).getD s.fromSeq
        received := s.received ++ s.page }

/-- The state after some events, from a ledger and a first number. -/
def pagingRun (t : NumberedEntries) (fromSeq : ℤ) (events : List PagingEvent) : PagingState :=
  events.foldl pagingStep { table := t, fromSeq := fromSeq, received := [] }

/-- What has been received is the entries after the first number that are not after the number
reached. -/
def PagingState.Tracks (first : ℤ) (s : PagingState) : Prop :=
  ∃ received : List Row, s.received = received.map Row.toValue ∧
    KeysetPaging.Tracks Row.key first s.table.rows s.fromSeq received

theorem NumberedEntries.increasing_seq (t : NumberedEntries) :
    KeysetPaging.Increasing Row.key t.rows :=
  t.increasing.imp fun h => Int.ofNat_lt.mpr h

/-- The rows of a page. -/
def PagingState.pageRows (s : PagingState) : List Row :=
  (KeysetPaging.after Row.key s.fromSeq s.table.rows).take pageLimit

theorem PagingState.page_eq (s : PagingState) : s.page = s.pageRows.map Row.toValue := rfl

/-- The number a reader goes on from is the key it goes on after. -/
theorem PagingState.next_eq (s : PagingState) :
    (s.page.getLast?.map seqOf).getD s.fromSeq = KeysetPaging.next Row.key s.fromSeq s.pageRows :=
  next_key (fun r hr => s.table.range r (List.mem_filter.mp (List.mem_of_mem_take hr)).1) s.fromSeq

/-- **The step**: a page and an insertion keep the reader in step with the ledger. -/
theorem PagingState.Tracks.step {first : ℤ} {s : PagingState} (h : s.Tracks first)
    (e : PagingEvent) : (pagingStep s e).Tracks first := by
  obtain ⟨received, hreceived, htracks⟩ := h
  cases e with
  | insertEntry e seq =>
      rw [pagingStep, NumberedEntries.insertEntry]
      split
      · next hnew =>
        refine ⟨received, hreceived, htracks.append fun r hr => ?_⟩
        exact Int.ofNat_lt.mpr (hnew.1 r hr)
      · exact ⟨received, hreceived, htracks⟩
  | getEntriesFrom =>
      refine ⟨received ++ s.pageRows, ?_, ?_⟩
      · rw [List.map_append, ← hreceived]
        rfl
      · have hpage := htracks.page s.table.increasing_seq pageLimit
        rw [pagingStep]
        simp only [s.next_eq]
        exact hpage

/-- **The run**: the reader is in step with the ledger after every run. -/
theorem pagingRun_tracks (t : NumberedEntries) (fromSeq : ℤ) (events : List PagingEvent) :
    (pagingRun t fromSeq events).Tracks fromSeq :=
  Runs.invariant_foldl pagingStep (I := (·.Tracks fromSeq)) (G := fun _ _ => True)
    (fun _ e hs _ => hs.step e) ⟨[], rfl, .refl fromSeq t.rows⟩ fun _ _ => trivial

/-! ### The end of reading -/

/-- A page is empty only when no entry is left. -/
theorem PagingState.page_eq_nil_iff (s : PagingState) :
    s.page = [] ↔
      KeysetPaging.after Row.key s.fromSeq s.table.rows = [] := by
  rw [page_eq, List.map_eq_nil_iff, pageRows, List.take_eq_nil_iff]
  exact or_iff_right pageLimit_pos.ne'

/-- While nothing is inserted, some page is empty. Induction on the entries left. -/
theorem PagingState.exists_page_eq_nil (s : PagingState) :
    ∃ calls, ((List.replicate calls PagingEvent.getEntriesFrom).foldl pagingStep s).page = [] := by
  induction hleft : (KeysetPaging.after Row.key s.fromSeq
    s.table.rows).length using Nat.strongRecOn generalizing s with
  | ind left ih =>
      by_cases hpage : s.page = []
      · exact ⟨0, hpage⟩
      · have hne : KeysetPaging.after Row.key s.fromSeq s.table.rows ≠ [] := fun hnil =>
          hpage (s.page_eq_nil_iff.mpr hnil)
        have hnext : (pagingStep s .getEntriesFrom).fromSeq =
            KeysetPaging.next Row.key s.fromSeq s.pageRows := s.next_eq
        have hless : (KeysetPaging.after Row.key (pagingStep s .getEntriesFrom).fromSeq
            s.table.rows).length < left := by
          rw [hnext, ← hleft]
          exact KeysetPaging.length_after_next_lt s.table.increasing_seq pageLimit_pos hne
        obtain ⟨calls, hcalls⟩ := ih _ hless (pagingStep s .getEntriesFrom) rfl
        exact ⟨calls + 1, by rwa [List.replicate_succ, List.foldl_cons]⟩

/-- A reader in step has received everything exactly when its next page is empty. -/
theorem PagingState.Tracks.page_eq_nil_iff {first : ℤ} {s : PagingState} (h : s.Tracks first) :
    s.page = [] ↔ s.received = s.table.entriesAfter first := by
  obtain ⟨received, hreceived, htracks⟩ := h
  have hall : s.table.entriesAfter first = received.map Row.toValue ++
      (KeysetPaging.after Row.key s.fromSeq s.table.rows).map Row.toValue := by
    rw [← List.map_append, htracks.split]
    rfl
  rw [PagingState.page_eq_nil_iff, hreceived, hall, List.self_eq_append_right,
    List.map_eq_nil_iff]

/-- A reader in step has received entries in the order of their numbers. -/
theorem PagingState.Tracks.pairwise {first : ℤ} {s : PagingState} (h : s.Tracks first) :
    (s.received.map seqOf).Pairwise (· < ·) := by
  obtain ⟨received, hreceived, htracks⟩ := h
  have hseqs : received.map (seqOf ∘ Row.toValue) = received.map Row.key := by
    refine List.map_congr_left fun r hr => ?_
    have hafter : r ∈ KeysetPaging.after Row.key first s.table.rows := by
      rw [← htracks.split]
      exact List.mem_append_left _ hr
    have hrange := s.table.range r (List.mem_filter.mp hafter).1
    rw [Function.comp_apply, Row.seqOf_toValue hrange]
  rw [hreceived, List.map_map, hseqs, List.pairwise_map]
  exact htracks.increasing s.table.increasing_seq

/-- **Paging reads every entry once.** For every ledger, every first number, and every order of
pages and insertions: the next page is empty exactly when the reader has received all entries
after the first number that the ledger has by then, in the order of their numbers; no number
comes twice; and the reader gets to an empty page when it is left alone with the ledger. -/
theorem paging_complete (t : NumberedEntries) (fromSeq : ℤ) (events : List PagingEvent) :
    ((pagingRun t fromSeq events).page = [] ↔
      (pagingRun t fromSeq events).received =
        (pagingRun t fromSeq events).table.entriesAfter fromSeq) ∧
    ((pagingRun t fromSeq events).received.map seqOf).Pairwise (· < ·) ∧
    ∃ calls, (pagingRun t fromSeq
      (events ++ List.replicate calls PagingEvent.getEntriesFrom)).page = [] := by
  have htracks := pagingRun_tracks t fromSeq events
  refine ⟨htracks.page_eq_nil_iff, htracks.pairwise, ?_⟩
  obtain ⟨calls, hcalls⟩ := (pagingRun t fromSeq events).exists_page_eq_nil
  exact ⟨calls, by rwa [pagingRun, List.foldl_append]⟩

/-! ### Reading while entries are recorded -/

/-- A call on a ledger that is read. -/
inductive ReadCall
  | recordEntry (c : RecordCall)
  | getEntriesFrom

/-- A ledger, and a reader of it. -/
structure LedgerReader where
  ledger : LedgerEntries
  fromSeq : ℤ
  received : List Value

variable (hex : HexCodec) (blake3 : HashFn)

/-- One call. An entry that is not recorded changes nothing. -/
def readerStep (s : LedgerReader) : ReadCall → LedgerReader
  | .recordEntry c =>
      match s.ledger.recordEntry hex blake3 c with
      | .ok (t, _) => { s with ledger := t }
      | .error _ => s
  | .getEntriesFrom =>
      let page := s.ledger.getPage s.fromSeq
      { s with
        fromSeq := (page.getLast?.map seqOf).getD s.fromSeq
        received := s.received ++ page }

/-- The reader, of whose ledger only the order of the numbers is known. -/
def LedgerReader.toPaging (s : LedgerReader) : PagingState where
  table := s.ledger.toNumbered
  fromSeq := s.fromSeq
  received := s.received

/-- A call is one event at most: an entry that is recorded is inserted under its number. -/
def LedgerReader.events (s : LedgerReader) : ReadCall → List PagingEvent
  | .recordEntry c =>
      match s.ledger.recordEntry hex blake3 c with
      | .ok (_, seq) => [.insertEntry (c.entry hex blake3) seq]
      | .error _ => []
  | .getEntriesFrom => [.getEntriesFrom]

theorem LedgerReader.toPaging_step (s : LedgerReader) (call : ReadCall) :
    (readerStep hex blake3 s call).toPaging =
      (s.events hex blake3 call).foldl pagingStep s.toPaging := by
  cases call with
  | recordEntry c =>
      rw [readerStep, events]
      cases hrec : s.ledger.recordEntry hex blake3 c with
      | error e => rfl
      | ok result =>
          obtain ⟨t, seq⟩ := result
          simp only [toPaging, LedgerEntries.insertEntry_toNumbered hrec, List.foldl_cons,
            List.foldl_nil, pagingStep]
  | getEntriesFrom => rfl

/-- **Refinement**: every run of calls on a ledger is a run of events on its table. -/
theorem LedgerReader.exists_events (s : LedgerReader) (calls : List ReadCall) :
    ∃ events : List PagingEvent, (calls.foldl (readerStep hex blake3) s).toPaging =
      events.foldl pagingStep s.toPaging := by
  induction calls generalizing s with
  | nil => exact ⟨[], rfl⟩
  | cons call calls ih =>
      obtain ⟨events, hevents⟩ := ih (readerStep hex blake3 s call)
      refine ⟨s.events hex blake3 call ++ events, ?_⟩
      rw [List.foldl_cons, hevents, s.toPaging_step, List.foldl_append]

/-- A ledger that is read while entries are recorded in it: when the next page is empty, its
reader has received all entries after the first number, in the order of their numbers. -/
theorem LedgerReader.received_eq (t : LedgerEntries) (fromSeq : ℤ) (calls : List ReadCall)
    {s : LedgerReader}
    (hs : s = calls.foldl (readerStep hex blake3)
      { ledger := t, fromSeq := fromSeq, received := [] })
    (hend : s.ledger.getPage s.fromSeq = []) :
    s.received = s.ledger.toNumbered.entriesAfter fromSeq := by
  obtain ⟨events, hevents⟩ := exists_events hex blake3
    { ledger := t, fromSeq := fromSeq, received := [] } calls
  rw [← hs] at hevents
  have htracks : s.toPaging.Tracks fromSeq := by
    rw [hevents]
    exact pagingRun_tracks t.toNumbered fromSeq events
  exact htracks.page_eq_nil_iff.mp hend

end VaultKeeper
