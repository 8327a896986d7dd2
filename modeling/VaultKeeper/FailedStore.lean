import VaultKeeper.ShardMap

/-!
# Stores that Fail

A store overwrites the two files of a shard in place, one after the other, and a shard is
retrieved only when the one verifies the other. So a store that fails after it began to
write can take away what was stored before. Which failures do no harm is read off the two
files before the store: those before anything is written; those that write what is there
already; and those of a shard that could not be retrieved before, as long as they do not
leave data that the old metadata verifies, or data and metadata both.

## Main results

* `outcome_failed_iff`: when a failed store leaves what is retrieved as it was.
* `retrieveShard_storeShard`: what is retrieved after a store, by the step that fails.
* `failed_store_harmless_iff`: which failures do no harm, in every state that a run reaches.
* `cut_store_loses`: a shard that was stored is lost when its overwriting is cut short.
-/

namespace VaultKeeper

open FileTree

namespace ShardStore

variable {hex : HexCodec} {json : MetaJson} {blake3 : HashFn} {s : ShardStore} {disk : Disk}

/-! ### Failures that do no harm -/

/-- Whether two files of a shard have data that can be retrieved. -/
def retrievable (hex : HexCodec) (json : MetaJson) (blake3 : HashFn)
    (shard metadata : Option Bytes) : Bool :=
  shard.any (verifies hex json blake3 metadata)

/-- New data under old metadata is retrieved as the old data was: it is the old data, or
neither can be retrieved. -/
def Spared (hex : HexCodec) (json : MetaJson) (blake3 : HashFn) (shard metadata : Option Bytes)
    (new : Bytes) : Prop :=
  shard = some new ∨
    retrievable hex json blake3 shard metadata = false ∧
      verifies hex json blake3 metadata new = false

/-- The failures of a store that leave the data that is retrieved as it was, by the two files
before the store, the data and the text of the metadata that are to be stored. -/
def Harmless (hex : HexCodec) (json : MetaJson) (blake3 : HashFn) (shard metadata : Option Bytes)
    (data text : Bytes) : StoreFault → Prop
  | .createDir _ => True
  | .writeShard .notOpened => True
  | .writeShard (.cutShort n) => Spared hex json blake3 shard metadata (data.take n)
  | .writeMeta .notOpened => Spared hex json blake3 shard metadata data
  | .writeMeta (.cutShort n) =>
      if n < text.length then retrievable hex json blake3 shard metadata = false
      else shard = some data ∧ verifies hex json blake3 metadata data = true

/-- The harmless failures that leave also the error as it was, if there is one: a shard that
was not there is still not found, or the same is wrong with the metadata. -/
def SameError (json : MetaJson) (shard metadata : Option Bytes) (text : Bytes) :
    StoreFault → Prop
  | .createDir _ => True
  | .writeShard .notOpened => True
  | .writeShard (.cutShort _) => shard ≠ none
  | .writeMeta .notOpened => shard ≠ none
  | .writeMeta (.cutShort n) =>
      n < text.length → shard ≠ none ∧ recordOf json metadata = recordOf json (some (text.take n))

/-! ### What is retrieved after a failure -/

section Outcome

variable {c : ChunkId} {i : ShardIndex} {shard metadata : Option Bytes}

theorem filter_eq_none_iff_retrievable :
    shard.filter (verifies hex json blake3 metadata) = none ↔
      retrievable hex json blake3 shard metadata = false := by
  cases shard <;> simp [retrievable]

/-- New data under old metadata is retrieved as the old data was when it is spared. -/
theorem filter_new_iff {new : Bytes} :
    (some new).filter (verifies hex json blake3 metadata) =
        shard.filter (verifies hex json blake3 metadata) ↔
      Spared hex json blake3 shard metadata new := by
  rw [Spared]
  cases shard with
  | none => simp [retrievable]
  | some old =>
      by_cases heq : old = new
      · subst heq
        simp
      · have hne : new ≠ old := Ne.symm heq
        cases hnew : verifies hex json blake3 metadata new <;>
          cases hold : verifies hex json blake3 metadata old <;>
            simp [Option.filter_some, retrievable, hnew, hold, heq, hne]

theorem outcome_eq_ok_iff {data : Bytes} :
    outcome hex json blake3 s c i shard metadata = .ok data ↔
      shard = some data ∧ verifies hex json blake3 metadata data = true := by
  cases shard with
  | none => simp [outcome]
  | some old =>
      cases hrecord : recordOf json metadata with
      | error e => simp [outcome, verifies, hrecord]
      | ok record =>
          simp only [outcome, verifies, hrecord, decide_eq_true_eq, Option.some.injEq, ite_not]
          constructor
          · intro h
            split_ifs at h with hhash
            rw [Except.ok.injEq] at h
            exact ⟨h, h ▸ hhash⟩
          · rintro ⟨rfl, hhash⟩
            rw [if_pos hhash]

/-- Reading metadata fails without a context. -/
theorem recordOf_ne_context {e : ShardError} (h : recordOf json metadata = .error e)
    (context : String) (io : IoError) : e ≠ .io (some context) io := by
  rintro rfl
  cases metadata with
  | none => cases h
  | some bytes =>
      rw [recordOf, parseMeta] at h
      split at h
      · cases h
      · split at h <;> cases h

/-- Where a shard file is, retrieving does not fail for the want of it. -/
theorem outcome_ne_notFound {data : Bytes} :
    outcome hex json blake3 s c i (some data) metadata ≠
      outcome hex json blake3 s c i none metadata := by
  cases hrecord : recordOf json metadata with
  | error e =>
      have hcontext := recordOf_ne_context hrecord
      simpa [outcome, hrecord] using hcontext _ .notFound
  | ok record =>
      simp only [outcome, hrecord]
      split_ifs <;> simp

/-- Data that the metadata does not verify is refused for the same reason, whatever it is. -/
theorem outcome_refused_eq {old new : Bytes} (hold : verifies hex json blake3 metadata old = false)
    (hnew : verifies hex json blake3 metadata new = false) :
    outcome hex json blake3 s c i (some new) metadata =
      outcome hex json blake3 s c i (some old) metadata := by
  cases hrecord : recordOf json metadata with
  | error e => simp only [outcome, hrecord]
  | ok record =>
      rw [verifies, hrecord, decide_eq_false_iff_not] at hold hnew
      simp only [outcome, hrecord, if_pos hold, if_pos hnew]

/-- New data under old metadata is retrieved as the old data was, or refused for the same
reason, when it is spared and a shard was there. -/
theorem outcome_new_iff {new : Bytes} :
    outcome hex json blake3 s c i (some new) metadata =
        outcome hex json blake3 s c i shard metadata ↔
      Spared hex json blake3 shard metadata new ∧ shard ≠ none := by
  constructor
  · intro h
    refine ⟨filter_new_iff.mp ?_, ?_⟩
    · rw [← toOption_outcome (s := s) c i, ← toOption_outcome (s := s) c i, h]
    · rintro rfl
      exact outcome_ne_notFound h
  · rintro ⟨rfl | ⟨hold, hnew⟩, hshard⟩
    · rfl
    · obtain ⟨old, rfl⟩ := Option.ne_none_iff_exists'.mp hshard
      exact outcome_refused_eq hold hnew

/-- Metadata that was cut short is no text, or no record. -/
theorem recordOf_cut (hcut : json.RefusesCut) (record : ShardMeta) {n : ℕ}
    (hn : n < (utf8 (json.toStringPretty record)).length) :
    ∃ e, recordOf json (some ((utf8 (json.toStringPretty record)).take n)) = .error e ∧
      (e = .notUtf8 ∨ ∃ message, e = .json message) := by
  rw [recordOf, parseMeta]
  cases htext : readUtf8 ((utf8 (json.toStringPretty record)).take n) with
  | none => exact ⟨.notUtf8, rfl, Or.inl rfl⟩
  | some text =>
      obtain ⟨message, hmessage⟩ := hcut record n text hn htext
      exact ⟨.json message, by simp only [hmessage], Or.inr ⟨message, rfl⟩⟩

/-- Under such metadata a shard is refused as it was refused before when it was there, and
its metadata was refused in the same way. -/
theorem outcome_cut_iff {bytes : Bytes} {e : ShardError}
    (hrecord : recordOf json (some bytes) = .error e)
    (he : e = .notUtf8 ∨ ∃ message, e = .json message) (data : Bytes) :
    outcome hex json blake3 s c i (some data) (some bytes) =
        outcome hex json blake3 s c i shard metadata ↔
      retrievable hex json blake3 shard metadata = false ∧ shard ≠ none ∧
        recordOf json metadata = recordOf json (some bytes) := by
  have hafter : outcome hex json blake3 s c i (some data) (some bytes) = .error e := by
    simp only [outcome, hrecord]
  rw [hafter, hrecord]
  cases shard with
  | none => rcases he with rfl | ⟨message, rfl⟩ <;> simp [outcome]
  | some old =>
      cases hold : recordOf json metadata with
      | error e' => simp [outcome, retrievable, verifies, hold, eq_comm]
      | ok record =>
          simp only [outcome, hold]
          rcases he with rfl | ⟨message, rfl⟩ <;> split_ifs <;> simp

/-- **What a failed store leaves to be retrieved**: the same data in the harmless failures,
and the same error in those of them that leave it. -/
theorem outcome_failed_iff (hcut : json.RefusesCut) (data : Bytes)
    (createdAt lastVerified : String) (fault : StoreFault) :
    let text := utf8 (json.toStringPretty (newMeta hex blake3 c i data createdAt lastVerified))
    let after := outcome hex json blake3 s c i ((shardWritten data (some fault)).or shard)
      ((metaWritten text (some fault)).or metadata)
    let before := outcome hex json blake3 s c i shard metadata
    (after.toOption = before.toOption ↔
        Harmless hex json blake3 shard metadata data text fault) ∧
      (after = before ↔ Harmless hex json blake3 shard metadata data text fault ∧
        SameError json shard metadata text fault) := by
  intro text after before
  rw [show after.toOption = _ from toOption_outcome c i _ _,
    show before.toOption = _ from toOption_outcome c i _ _]
  rcases fault with made | (_ | n) | (_ | n)
  · exact ⟨iff_of_true rfl trivial, iff_of_true rfl ⟨trivial, trivial⟩⟩
  · exact ⟨iff_of_true rfl trivial, iff_of_true rfl ⟨trivial, trivial⟩⟩
  · exact ⟨filter_new_iff, outcome_new_iff⟩
  · exact ⟨filter_new_iff, outcome_new_iff⟩
  · rw [Harmless, SameError]
    by_cases hn : n < text.length
    · -- the metadata is cut short: nothing can be retrieved
      obtain ⟨e, hrecord, he⟩ := recordOf_cut hcut _ hn
      have hnone : (some data).filter (verifies hex json blake3 (some (text.take n))) = none := by
        rw [Option.filter_some, if_neg]
        simp [verifies, text, hrecord]
      rw [if_pos hn, ← filter_eq_none_iff_retrievable]
      refine ⟨?_, ?_⟩
      · change (some data).filter (verifies hex json blake3 (some (text.take n))) = _ ↔ _
        rw [hnone, eq_comm]
      · rw [filter_eq_none_iff_retrievable]
        exact (outcome_cut_iff hrecord he data).trans (by simp [hn, text])
    · -- all of it is written before the write fails: the new data can be retrieved
      have htake : text.take n = text := List.take_of_length_le (by omega)
      have hverifies : verifies hex json blake3 (some text) data = true :=
        verifies_newMeta hex json blake3 c i data createdAt lastVerified
      have hafter : after = .ok data := by
        change outcome hex json blake3 s c i (some data) (some (text.take n)) = .ok data
        rw [htake]
        exact outcome_eq_ok_iff.mpr ⟨rfl, hverifies⟩
      rw [if_neg hn, hafter]
      refine ⟨?_, ?_⟩
      · change (some data).filter (verifies hex json blake3 (some (text.take n))) = _ ↔ _
        rw [htake, Option.filter_some, if_pos hverifies, eq_comm, Option.filter_eq_some_iff]
      · rw [eq_comm]
        exact outcome_eq_ok_iff.trans (by simp [hn])

end Outcome

/-! ### Failures in a run -/

/-- What is retrieved after a store, by the two files before it and the step that fails. -/
theorem retrieveShard_storeShard (h : WellFormed hex s disk) (c : ChunkId) (i : ShardIndex)
    (data : Bytes) (createdAt lastVerified : String) (fault : Option StoreFault) :
    s.retrieveShard hex json blake3 c i
        (s.storeShard hex json blake3 c i data createdAt lastVerified fault disk).2 =
      outcome hex json blake3 s c i ((shardWritten data fault).or (s.shardFile hex c i disk))
        ((metaWritten (utf8 (json.toStringPretty
          (newMeta hex blake3 c i data createdAt lastVerified))) fault).or
          (s.metaFile hex c i disk)) := by
  obtain ⟨disk', heq, hstored⟩ :=
    storeShard_spec json blake3 h c i data createdAt lastVerified fault
  rw [heq, retrieveShard_eq_outcome (hstored.wellFormed h), hstored.shardFile, hstored.metaFile,
    if_pos ⟨rfl, rfl⟩, if_pos ⟨rfl, rfl⟩]

/-- **A failed store** returns an error, in every state that a run of stores and deletes
reaches, whatever failed in it. What is retrieved after it is the data that was retrieved
before, or an error as before, exactly in the harmless failures; and it is the same error in
those of them that leave it. -/
theorem failed_store_harmless_iff (hcut : json.RefusesCut) {basePath : List String}
    {newFault : Option ℕ} {disk₀ : Disk} (hfresh : Fresh basePath disk₀)
    (hnew : new basePath newFault disk₀ = (.ok s, disk)) (calls : List Call) (c : ChunkId)
    (i : ShardIndex) (data : Bytes) (createdAt lastVerified : String) (fault : StoreFault) :
    let text := utf8 (json.toStringPretty (newMeta hex blake3 c i data createdAt lastVerified))
    let before := calls.foldl (s.callStep hex json blake3) disk
    let result := s.storeShard hex json blake3 c i data createdAt lastVerified (some fault) before
    let shard := s.shardFile hex c i before
    let metadata := s.metaFile hex c i before
    (∃ e, result.1 = .error e) ∧
      ((s.retrieveShard hex json blake3 c i result.2).toOption =
          (s.retrieveShard hex json blake3 c i before).toOption ↔
        Harmless hex json blake3 shard metadata data text fault) ∧
      (s.retrieveShard hex json blake3 c i result.2 =
          s.retrieveShard hex json blake3 c i before ↔
        Harmless hex json blake3 shard metadata data text fault ∧
          SameError json shard metadata text fault) := by
  intro text before result shard metadata
  have hlayout : WellFormed hex s before := wellFormed_run (wellFormed_new hfresh hnew).1 calls
  rw [retrieveShard_storeShard hlayout, retrieveShard_eq_outcome hlayout]
  refine ⟨?_, outcome_failed_iff hcut data createdAt lastVerified fault⟩
  obtain ⟨disk', heq, -⟩ :=
    storeShard_spec json blake3 hlayout c i data createdAt lastVerified (some fault)
  have hresult : result = _ := heq
  rw [hresult]
  rcases fault with _ | _ | _
  · exact ⟨_, rfl⟩
  · exact ⟨_, rfl⟩
  · exact ⟨_, rfl⟩

theorem failed_store_harmless_notOpened :
    oneStore.retrieveShard .lowercase .pretty stepDigest oneChunk ⟨0⟩
        (oneStore.storeShard .lowercase .pretty stepDigest oneChunk ⟨0⟩ [9] "" ""
          (some (.writeShard .notOpened))
          (overwritingCalls.foldl (oneStore.callStep .lowercase .pretty stepDigest) oneDisk)).2 =
      oneStore.retrieveShard .lowercase .pretty stepDigest oneChunk ⟨0⟩
        (overwritingCalls.foldl (oneStore.callStep .lowercase .pretty stepDigest) oneDisk) :=
  (failed_store_harmless_iff MetaJson.pretty_refusesCut (fresh_empty _) new_oneStore
    overwritingCalls oneChunk ⟨0⟩ [9] "" "" (.writeShard .notOpened)).2.2.mpr ⟨trivial, trivial⟩

/-! ### Shards that are lost -/

/-- Metadata verifies data of one hash only. -/
theorem hash_eq_of_verifies {metadata : Option Bytes} {old new : Bytes}
    (hold : verifies hex json blake3 metadata old = true)
    (hnew : verifies hex json blake3 metadata new = true) : blake3 new = blake3 old := by
  cases hrecord : recordOf json metadata with
  | error e => simp [verifies, hrecord] at hold
  | ok record =>
      simp only [verifies, hrecord, decide_eq_true_eq] at hold hnew
      exact Hash.ext (hex.encode_injective (hnew.trans hold.symm))

/-- **A shard that was stored is lost** when the write that overwrites it is cut short, unless
what is left has the hash of what was there. -/
theorem cut_store_loses (h : WellFormed hex s disk) {c : ChunkId} {i : ShardIndex} {old : Bytes}
    (hold : s.retrieveShard hex json blake3 c i disk = .ok old) (data : Bytes)
    (createdAt lastVerified : String) {n : ℕ} (hhash : blake3 (data.take n) ≠ blake3 old) :
    (s.retrieveShard hex json blake3 c i
      (s.storeShard hex json blake3 c i data createdAt lastVerified
        (some (.writeShard (.cutShort n))) disk).2).toOption = none := by
  rw [retrieveShard_eq_outcome h, outcome_eq_ok_iff] at hold
  rw [retrieveShard_storeShard h, toOption_outcome]
  change (some (data.take n)).filter (verifies hex json blake3 (s.metaFile hex c i disk)) = none
  rw [Option.filter_some, if_neg fun hnew => hhash (hash_eq_of_verifies hold.2 hnew)]

/-- A shard of the byte 3 is overwritten, the write fails before its first byte, and the
shard that was stored cannot be retrieved. -/
theorem overwriting_cut_loses :
    let before := overwritingCalls.foldl (oneStore.callStep .lowercase .pretty stepDigest) oneDisk
    let result := oneStore.storeShard .lowercase .pretty stepDigest oneChunk ⟨0⟩ [9] "" ""
      (some (.writeShard (.cutShort 0))) before
    Fresh ["shards"] ∅ ∧ new ["shards"] none ∅ = (.ok oneStore, oneDisk) ∧
      (∃ e, result.1 = .error e) ∧
      oneStore.retrieveShard .lowercase .pretty stepDigest oneChunk ⟨0⟩ before = .ok [3] ∧
      (oneStore.retrieveShard .lowercase .pretty stepDigest oneChunk ⟨0⟩ result.2).toOption =
        none := by
  intro before result
  have h : Holds .lowercase .pretty stepDigest oneStore overwritingCalls before :=
    holds_run (fresh_empty _) new_oneStore
      (succeeds_of_noFault _ _ wellFormed_oneDisk noFault_overwritingCalls)
  have hstored : stored overwritingCalls oneChunk ⟨0⟩ = some [3] := rfl
  have hold : oneStore.retrieveShard .lowercase .pretty stepDigest oneChunk ⟨0⟩ before =
      .ok [3] := by
    rw [retrieveShard_eq_outcome h.layout, outcome_eq_ok_iff, h.shards]
    exact ⟨hstored, h.verified _ _ _ hstored⟩
  obtain ⟨disk', heq, -⟩ := storeShard_spec .pretty stepDigest h.layout oneChunk ⟨0⟩ [9] "" ""
    (some (.writeShard (.cutShort 0)))
  refine ⟨fresh_empty _, new_oneStore, ⟨_, congrArg Prod.fst heq⟩, hold, ?_⟩
  exact cut_store_loses h.layout hold [9] "" "" (by decide)

end ShardStore

end VaultKeeper
