import VaultKeeper.GossipSync
import VaultKeeper.Recording
import VaultKeeper.Runs

/-!
# Sync Rounds

`ledger/src/schema.rs`: a sync round reads the entries that are not synced and later marks
all entries up to the largest number it read. Entries are marked by number and not by what
was read, and between the two calls others record entries and run rounds of their own. The
numbers of new entries are larger than all that were read, so that what a round marks is
what it read or what a round before it read.

## Main results

* `RoundState.Invariant.step`: what every call keeps, however the rounds overlap.
* `unsynced_or_read`: at every moment an entry is still unsynced or was read by a round.
-/

namespace VaultKeeper

open LedgerEntries

/-- The largest number of a batch. -/
def largestSeq (batch : List Value) : ℤ :=
  (batch.map seqOf).foldl max 0

/-- A call on the shared store: an entry is recorded, a round reads its batch, or one of the
rounds under way marks up to the largest number of its batch. -/
inductive RoundCall
  | recordEntry (c : RecordCall)
  | getUnsynced
  | markSynced (round : ℕ)

/-- The table, the batches of the rounds under way, and those of the rounds that ended. -/
structure RoundState where
  entries : LedgerEntries
  underWay : List (List Value)
  ended : List (List Value)

/-- The state in which a new store is opened. -/
def RoundState.new : RoundState where
  entries := .empty
  underWay := []
  ended := []

/-- One call. A round with nothing to read is no round. -/
def roundStep (hex : HexCodec) (blake3 : HashFn) (s : RoundState) : RoundCall → RoundState
  | .recordEntry c =>
      match s.entries.recordEntry hex blake3 c with
      | .ok (t, _) => { s with entries := t }
      | .error _ => s
  | .getUnsynced =>
      let batch := s.entries.getUnsyncedEntries
      if batch = [] then s else { s with underWay := s.underWay ++ [batch] }
  | .markSynced round =>
      match s.underWay[round]? with
      | none => s
      | some batch =>
          { entries := s.entries.markSynced (largestSeq batch)
            underWay := s.underWay.eraseIdx round
            ended := s.ended ++ [batch] }

/-! ### What the calls do to rows -/

theorem largestSeq_le {batch : List Value} {n : ℤ} (hn : 0 ≤ n) (h : ∀ v ∈ batch, seqOf v ≤ n) :
    largestSeq batch ≤ n := by
  refine List.foldlRecOn (motive := (· ≤ n)) (batch.map seqOf) max hn fun m hm k hk => ?_
  obtain ⟨v, hv, rfl⟩ := List.mem_map.mp hk
  exact max_le hm (h v hv)

/-- Marking keeps what is read of a row, and marks rows up to the number only. -/
theorem mem_markSynced {t : LedgerEntries} {n : ℤ} {r' : Row} (h : r' ∈ (t.markSynced n).rows) :
    ∃ r ∈ t.rows, r'.toValue = r.toValue ∧ r'.seq = r.seq ∧
      (r'.synced = true → r.synced = true ∨ (r.seq : ℤ) ≤ n) := by
  obtain ⟨r, hr, rfl⟩ := List.mem_map.mp h
  refine ⟨r, hr, ?_⟩
  split
  · next hmark => exact ⟨rfl, rfl, fun _ => Or.inr hmark.1⟩
  · exact ⟨rfl, rfl, Or.inl⟩

/-- A row is still there after marking. -/
theorem exists_mem_markSynced {t : LedgerEntries} {r : Row} (n : ℤ) (h : r ∈ t.rows) :
    ∃ r' ∈ (t.markSynced n).rows, r'.toValue = r.toValue := by
  refine ⟨_, List.mem_map_of_mem h, ?_⟩
  split <;> rfl

/-- An entry that is recorded stays in the table. -/
theorem roundStep_keeps (hex : HexCodec) (blake3 : HashFn) {s : RoundState} (e : RoundCall)
    {v : Value} (h : ∃ r ∈ s.entries.rows, r.toValue = v) :
    ∃ r ∈ (roundStep hex blake3 s e).entries.rows, r.toValue = v := by
  obtain ⟨r, hr, rfl⟩ := h
  cases e with
  | recordEntry c =>
      rw [roundStep]
      split
      · next t seq hrec =>
        have hrows : t.rows = s.entries.rows ++ _ := (insertEntry_eq_ok hrec).1
        exact ⟨r, hrows ▸ List.mem_append_left _ hr, rfl⟩
      · exact ⟨r, hr, rfl⟩
  | getUnsynced =>
      simp only [roundStep]
      split
      · exact ⟨r, hr, rfl⟩
      · exact ⟨r, hr, rfl⟩
  | markSynced round =>
      rw [roundStep]
      split
      · exact ⟨r, hr, rfl⟩
      · exact exists_mem_markSynced _ hr

/-! ### The invariant of overlapping rounds -/

/-- What holds between calls. An entry that is marked was read by a round that ended; and of
a round under way, every entry up to the largest number it read was read by it, or by a round
that ended. -/
structure RoundState.Invariant (s : RoundState) : Prop where
  marked : ∀ r ∈ s.entries.rows, r.synced = true → ∃ batch ∈ s.ended, r.toValue ∈ batch
  read : ∀ batch ∈ s.underWay, ∀ r ∈ s.entries.rows, (r.seq : ℤ) ≤ largestSeq batch →
    r.toValue ∈ batch ∨ ∃ batch' ∈ s.ended, r.toValue ∈ batch'
  largest : ∀ batch ∈ s.underWay, largestSeq batch ≤ s.entries.rows.length

theorem RoundState.new_invariant : RoundState.new.Invariant where
  marked := by simp [new, empty]
  read := by simp [new]
  largest := by simp [new]

theorem RoundState.Invariant.recordEntry {s : RoundState} (hs : s.Invariant)
    {t : LedgerEntries} {r : Row} (hrows : t.rows = s.entries.rows ++ [r])
    (hseq : r.seq = s.entries.rows.length + 1) (hsynced : r.synced = false) :
    RoundState.Invariant { s with entries := t } where
  marked r' hr' hmark := by
    rw [hrows, List.mem_append, List.mem_singleton] at hr'
    rcases hr' with hr' | rfl
    · exact hs.marked r' hr' hmark
    · exact absurd hmark (by simp [hsynced])
  read batch hbatch r' hr' hle := by
    rw [hrows, List.mem_append, List.mem_singleton] at hr'
    rcases hr' with hr' | rfl
    · exact hs.read batch hbatch r' hr' hle
    · -- the new number is above all that the rounds under way have read
      have hlargest := hs.largest batch hbatch
      omega
  largest batch hbatch := by
    have hlargest := hs.largest batch hbatch
    rw [hrows, List.length_append, List.length_singleton]
    omega

theorem RoundState.Invariant.getUnsynced {s : RoundState} (hs : s.Invariant) :
    RoundState.Invariant { s with underWay := s.underWay ++ [s.entries.getUnsyncedEntries] } where
  marked := hs.marked
  read batch hbatch r hr hle := by
    rw [List.mem_append, List.mem_singleton] at hbatch
    rcases hbatch with hbatch | rfl
    · exact hs.read batch hbatch r hr hle
    · cases hsynced : r.synced with
      | true => exact Or.inr (hs.marked r hr hsynced)
      | false =>
          exact Or.inl (List.mem_map_of_mem (List.mem_filter.mpr ⟨hr, by simp [hsynced]⟩))
  largest batch hbatch := by
    rw [List.mem_append, List.mem_singleton] at hbatch
    rcases hbatch with hbatch | rfl
    · exact hs.largest batch hbatch
    · refine largestSeq_le (by omega) fun v hv => ?_
      obtain ⟨r, hr, rfl⟩ := List.mem_map.mp hv
      have hmem := List.mem_of_mem_filter hr
      have hle := seq_le_of_mem hmem
      rw [seqOf_toValue hmem]
      exact_mod_cast hle

theorem RoundState.Invariant.markSynced {s : RoundState} (hs : s.Invariant) {round : ℕ}
    {batch : List Value} (hbatch : batch ∈ s.underWay) :
    RoundState.Invariant
      { entries := s.entries.markSynced (largestSeq batch)
        underWay := s.underWay.eraseIdx round
        ended := s.ended ++ [batch] } where
  marked r' hr' hmark := by
    obtain ⟨r, hr, hvalue, -, hbefore⟩ := mem_markSynced hr'
    rw [hvalue]
    rcases hbefore hmark with hsynced | hle
    · obtain ⟨b, hb, hmem⟩ := hs.marked r hr hsynced
      exact ⟨b, List.mem_append_left _ hb, hmem⟩
    · rcases hs.read batch hbatch r hr hle with hmem | ⟨b, hb, hmem⟩
      · exact ⟨batch, by simp, hmem⟩
      · exact ⟨b, List.mem_append_left _ hb, hmem⟩
  read b hb r' hr' hle := by
    obtain ⟨r, hr, hvalue, hseq, -⟩ := mem_markSynced hr'
    rw [hvalue]
    rcases hs.read b (List.mem_of_mem_eraseIdx hb) r hr (hseq ▸ hle) with hmem | ⟨b', hb', hmem⟩
    · exact Or.inl hmem
    · exact Or.inr ⟨b', List.mem_append_left _ hb', hmem⟩
  largest b hb := by
    have hlargest := hs.largest b (List.mem_of_mem_eraseIdx hb)
    simpa [LedgerEntries.markSynced] using hlargest

/-- **The step**: every call keeps the invariant. -/
theorem RoundState.Invariant.step (hex : HexCodec) (blake3 : HashFn) {s : RoundState}
    (hs : s.Invariant) (e : RoundCall) : (roundStep hex blake3 s e).Invariant := by
  cases e with
  | recordEntry c =>
      rw [roundStep]
      split
      · next t seq hrec => exact hs.recordEntry (insertEntry_eq_ok hrec).1 rfl rfl
      · exact hs
  | getUnsynced =>
      simp only [roundStep]
      split
      · exact hs
      · exact hs.getUnsynced
  | markSynced round =>
      rw [roundStep]
      split
      · exact hs
      · next batch hbatch => exact hs.markSynced (List.mem_of_getElem? hbatch)

/-- **No entry is marked unseen**: an entry that is in the table at one moment is, at every
later moment, still returned as unsynced or in the batch of a round that ended. -/
theorem unsynced_or_read (hex : HexCodec) (blake3 : HashFn) (earlier later : List RoundCall) :
    ∀ r ∈ (earlier.foldl (roundStep hex blake3) .new).entries.rows,
      r.toValue ∈
          ((earlier ++ later).foldl (roundStep hex blake3) .new).entries.getUnsyncedEntries ∨
        ∃ batch ∈ ((earlier ++ later).foldl (roundStep hex blake3) .new).ended,
          r.toValue ∈ batch := by
  intro r hr
  have hinv : ((earlier ++ later).foldl (roundStep hex blake3) .new).Invariant :=
    Runs.invariant_foldl (roundStep hex blake3) (G := fun _ _ => True)
      (fun _ e hs _ => hs.step hex blake3 e) RoundState.new_invariant fun _ _ => trivial
  have hkept : ∃ r' ∈ ((earlier ++ later).foldl (roundStep hex blake3) .new).entries.rows,
      r'.toValue = r.toValue := by
    rw [List.foldl_append]
    exact Runs.invariant_foldl (roundStep hex blake3) (G := fun _ _ => True)
      (I := fun s => ∃ r' ∈ s.entries.rows, r'.toValue = r.toValue)
      (fun _ e hs _ => roundStep_keeps hex blake3 e hs) ⟨r, hr, rfl⟩ fun _ _ => trivial
  obtain ⟨r', hr', hvalue⟩ := hkept
  rw [← hvalue]
  cases hsynced : r'.synced with
  | true => exact Or.inr (hinv.marked r' hr' hsynced)
  | false => exact Or.inl (List.mem_map_of_mem (List.mem_filter.mpr ⟨hr', by simp [hsynced]⟩))

/-- A deposit is read by a round, which marks it after a charge was recorded. -/
theorem unsynced_or_read_deposit : ∃ t r,
    empty.recordEntry .lowercase blake3Recorded depositCall = .ok (t, 1) ∧ r ∈ t.rows ∧
      (r.toValue ∈ ([.recordEntry depositCall, .getUnsynced, .recordEntry chargeCall,
          .markSynced 0].foldl (roundStep .lowercase blake3Recorded)
            .new).entries.getUnsyncedEntries ∨
        ∃ batch ∈ ([.recordEntry depositCall, .getUnsynced, .recordEntry chargeCall,
          .markSynced 0].foldl (roundStep .lowercase blake3Recorded) .new).ended,
            r.toValue ∈ batch) := by
  obtain ⟨t, -, hrec, -, -⟩ := exists_recorded
  have hrows : t.rows = empty.rows ++ [_] := (insertEntry_eq_ok hrec).1
  have hmem := hrows ▸ List.mem_append_right _ (List.mem_singleton_self _)
  refine ⟨t, _, hrec, hmem, ?_⟩
  refine unsynced_or_read .lowercase blake3Recorded [.recordEntry depositCall]
    [.getUnsynced, .recordEntry chargeCall, .markSynced 0] _ ?_
  have hstate : (roundStep .lowercase blake3Recorded .new (.recordEntry depositCall)).entries =
      t := by
    simp [roundStep, RoundState.new, hrec]
  rw [List.foldl_cons, List.foldl_nil, hstate]
  exact hmem

end VaultKeeper
