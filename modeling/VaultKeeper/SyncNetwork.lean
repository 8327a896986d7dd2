import VaultKeeper.LatestWins
import VaultKeeper.LedgerRoot
import VaultKeeper.SyncResults

/-!
# Ledgers that Synchronize

`ledger/src/gossip_sync.rs` and `ledger/src/conflict.rs`: nodes that write entries of their
own, advertise their state, ask each other for entries and apply the results of what
arrives. A message that was sent may be delivered to any node, at any later time, any number
of times or never; an answer may contain any of the entries of the node that sends it, in any
order, whatever was asked for.

Each node keeps one version of an id. Where it came from is a matter of which nodes'
writes it has been compared with: the version a node holds is one of those they wrote, and
none of these has a later timestamp.

## Main results

* `entryFor_processed`: what an answer does to the version of one id.
* `SyncNet.Invariant.step`: what every event keeps, for the nodes and for the messages.
* `SyncNet.versions_converge`: the version a node holds after any run.
-/

namespace VaultKeeper

open LatestWins

/-! ### One answer -/

/-- The first entry with an id. -/
def entryFor (entries : List Value) (id : String) : Option Value :=
  entries.find? fun e => idOf e == some id

theorem entryFor_eq_none_iff {entries : List Value} {id : String} :
    entryFor entries id = none ↔ id ∉ idsOf entries := by
  simp [entryFor, idsOf, List.find?_eq_none]

theorem mem_of_entryFor {entries : List Value} {id : String} {e : Value}
    (h : entryFor entries id = some e) : e ∈ entries ∧ idOf e = some id :=
  ⟨List.mem_of_find?_eq_some h, by simpa using List.find?_some h⟩

/-- Entries with distinct ids are found under their id. -/
theorem entryFor_eq_some_iff {entries : List Value} (h : DistinctIds entries) {id : String}
    {e : Value} : entryFor entries id = some e ↔ e ∈ entries ∧ idOf e = some id := by
  constructor
  · exact mem_of_entryFor
  · rintro ⟨he, hid⟩
    cases hfind : entryFor entries id with
    | none => exact absurd (mem_idsOf.mpr ⟨e, he, hid⟩) (entryFor_eq_none_iff.mp hfind)
    | some d =>
        obtain ⟨hd, hdid⟩ := mem_of_entryFor hfind
        rw [h.eq_of_idOf_eq hd he hdid hid]

/-- A result for a known id takes the place of the entry with this id. -/
theorem entryFor_applyResult {ledger : List Value} {result : ResolveResult}
    (h : ∃ e ∈ ledger, idOf e = idOf result.entry) (id : String) :
    entryFor (applyResult ledger result) id =
      (entryFor ledger id).map fun e =>
        if idOf result.entry = some id then result.entry else e := by
  rw [applyResult, if_pos h, entryFor, entryFor, List.find?_map]
  have hsame : ((fun e => idOf e == some id) ∘ fun e =>
      if idOf e = idOf result.entry then result.entry else e) =
        fun e => idOf e == some id := by
    funext e
    rw [Function.comp_apply]
    split
    · next heq => rw [heq]
    · rfl
  rw [hsame]
  cases hfind : ledger.find? fun e => idOf e == some id with
  | none => rfl
  | some e =>
      have hid : idOf e = some id := by simpa using List.find?_some hfind
      rw [Option.map_some, Option.map_some, hid]
      simp only [eq_comm]

/-- Results for known ids, all of those with one id the same entry: this entry takes the place
of the one with the id, when there is a result. -/
theorem entryFor_applyResults {ledger : List Value} {results : List ResolveResult}
    (h : ∀ result ∈ results, ∃ i, idOf result.entry = some i ∧ i ∈ idsOf ledger) {id : String}
    {e w : Value} (he : entryFor ledger id = some e)
    (hsame : ∀ result ∈ results, idOf result.entry = some id → result.entry = w)
    (hnone : (∀ result ∈ results, idOf result.entry ≠ some id) → e = w) :
    entryFor (applyResults ledger results) id = some w := by
  induction results generalizing ledger e with
  | nil =>
      rw [← hnone (by simp)]
      exact he
  | cons result rest ih =>
      rw [List.forall_mem_cons] at h hsame
      obtain ⟨⟨i, hi, hmem⟩, hrest⟩ := h
      have hknown : ∃ d ∈ ledger, idOf d = idOf result.entry := by
        rw [hi]
        exact mem_idsOf.mp hmem
      have hstep := entryFor_applyResult hknown id
      rw [he, Option.map_some] at hstep
      rw [applyResults, List.foldl_cons]
      refine ih ?_ hstep hsame.2 ?_
      · rwa [idsOf_applyResult hknown]
      · intro hall
        by_cases hid : idOf result.entry = some id
        · rw [if_pos hid, hsame.1 hid]
        · rw [if_neg hid]
          refine hnone fun r hr => ?_
          rcases List.mem_cons.mp hr with rfl | hr
          · exact hid
          · exact hall r hr

/-- No two of these entries have one id. -/
def OneVersionEach (entries : List Value) : Prop :=
  ∀ e ∈ entries, ∀ f ∈ entries, (idOf e).isSome → idOf e = idOf f → e = f

theorem OneVersionEach.entryFor {entries : List Value} (h : OneVersionEach entries) {id : String}
    {e : Value} (he : e ∈ entries) (hid : idOf e = some id) : entryFor entries id = some e := by
  cases hfind : VaultKeeper.entryFor entries id with
  | none => exact absurd (mem_idsOf.mpr ⟨e, he, hid⟩) (entryFor_eq_none_iff.mp hfind)
  | some d =>
      obtain ⟨hd, hdid⟩ := mem_of_entryFor hfind
      rw [h d hd e he (by simp [hdid]) (hdid.trans hid.symm)]

/-- The result of a remote entry has its id, and is what the two versions merge to. -/
theorem Resolves.entry_eq {ledger : List Value} {remote : Value} {result : ResolveResult}
    (h : Resolves ledger remote result) :
    idOf result.entry = idOf remote ∧ ∃ e ∈ ledger, (idOf e).isSome ∧ idOf e = idOf remote ∧
      result.entry = merge timestampOf e remote := by
  obtain ⟨e, he, hsome, hid, -, rfl⟩ := h
  rw [← hid]
  by_cases hlater : timestampOf e < timestampOf remote
  · rw [if_pos hlater]
    exact ⟨hid.symm, e, he, hsome, rfl, (if_pos hlater).symm⟩
  · rw [if_neg hlater]
    exact ⟨rfl, e, he, hsome, rfl, (if_neg hlater).symm⟩

theorem exists_left_of_forall₂ {α β : Type*} {R : α → β → Prop} {as : List α} {bs : List β}
    (h : List.Forall₂ R as bs) {b : β} (hb : b ∈ bs) : ∃ a ∈ as, R a b := by
  induction h with
  | nil => cases hb
  | @cons a c as bs hR _ ih =>
      rcases List.mem_cons.mp hb with rfl | hb
      · exact ⟨a, List.mem_cons_self .., hR⟩
      · obtain ⟨d, hd, hdR⟩ := ih hb
        exact ⟨d, List.mem_cons_of_mem _ hd, hdR⟩

theorem exists_right_of_forall₂ {α β : Type*} {R : α → β → Prop} {as : List α} {bs : List β}
    (h : List.Forall₂ R as bs) {a : α} (ha : a ∈ as) : ∃ b ∈ bs, R a b :=
  exists_left_of_forall₂ (R := fun b a => R a b) h.flip ha

/-- **What an answer does to one id**: the version held is merged with the one that arrives,
when both are there. -/
theorem entryFor_processed {m : LedgerSyncManager} {requestId : String}
    (hpending : (m.pendingRequests.lookup requestId).isSome) {ledger entries : List Value}
    (hids : DistinctIds ledger) (hone : OneVersionEach entries) {id : String}
    (htexts : ∀ e ∈ entryFor ledger id, ∀ f ∈ entryFor entries id, e.toText = f.toText →
      timestampOf e = timestampOf f) :
    entryFor (applyResults ledger (m.processEntries requestId entries ledger).1) id =
      (entryFor ledger id).map fun held =>
        (entryFor entries id).elim held (merge timestampOf held) := by
  have hresults := LedgerSyncManager.processEntries_forall₂ hpending hids entries
  have hknown : ∀ result ∈ (m.processEntries requestId entries ledger).1,
      ∃ i, idOf result.entry = some i ∧ i ∈ idsOf ledger := by
    intro result hresult
    obtain ⟨i, hi, hmem⟩ := LedgerSyncManager.id_of_mem_processEntries hresult
    exact ⟨i, hi, mem_idsOf.mpr hmem⟩
  cases hheld : entryFor ledger id with
  | none =>
      rw [Option.map_none, entryFor_eq_none_iff, idsOf_applyResults hknown]
      exact entryFor_eq_none_iff.mp hheld
  | some held =>
      obtain ⟨hmem, hid⟩ := mem_of_entryFor hheld
      rw [Option.map_some]
      refine entryFor_applyResults hknown hheld ?_ ?_
      · intro result hresult hrid
        obtain ⟨remote, hremote, hresolves⟩ := exists_left_of_forall₂ hresults hresult
        obtain ⟨hsame, e, he, -, heid, hentry⟩ := hresolves.entry_eq
        rw [hrid, eq_comm] at hsame
        rw [hone.entryFor (List.mem_of_mem_filter hremote) hsame, Option.elim_some, hentry,
          hids.eq_of_idOf_eq he hmem (heid.trans hsame) hid]
      · intro hnone
        cases harrived : entryFor entries id with
        | none => rfl
        | some remote =>
            obtain ⟨hremote, hremoteId⟩ := mem_of_entryFor harrived
            rw [Option.elim_some]
            by_cases htext : held.toText = remote.toText
            · exact (merge_of_le (htexts held hheld remote harrived htext).ge).symm
            · -- a different text is a conflict, and has a result
              have hconflict : conflictsWith ledger remote = true :=
                ConflictResolver.conflictsWith_iff.mpr ⟨held, hmem, id, hid, hremoteId, htext⟩
              obtain ⟨result, hresult, hresolves⟩ := exists_right_of_forall₂ hresults
                (List.mem_filter.mpr ⟨hremote, hconflict⟩)
              exact absurd (hresolves.entry_eq.1.trans hremoteId) (hnone result hresult)

/-- The number of a row in its text is ended by a comma. -/
theorem comma_notMem_toString (n : ℕ) : ',' ∉ (toString (n : ℤ)).toList := by
  intro hmem
  have hdigit := Nat.isDigit_of_mem_toDigits (b := 10) (by decide) (by decide)
    (show ',' ∈ Nat.toDigits 10 n by simpa [Int.toString_eq_repr, Int.repr] using hmem)
  exact absurd hdigit (by decide)

/-- What follows the number of a row and its comma is determined. -/
theorem seq_append_inj {n m : ℕ} {x y : String}
    (h : toString (n : ℤ) ++ ("," ++ x) = toString (m : ℤ) ++ ("," ++ y)) : x = y := by
  have hchars := congrArg String.toList h
  simp only [String.toList_append] at hchars
  obtain ⟨-, hrest⟩ := PrefixCode.append_stop_inj (comma_notMem_toString n)
    (comma_notMem_toString m) hchars
  exact String.toList_inj.mp hrest

/-- The text of a row determines its timestamp, whatever the numbers of the two rows. -/
theorem Row.timestamp_eq_of_text_eq {r s : Row} (h : r.toValue.toText = s.toValue.toText) :
    r.timestamp = s.timestamp := by
  simp only [Row.toValue, Row.fields, Value.toText, Value.fieldsText, String.append_assoc] at h
  obtain ⟨-, hamount⟩ := field_append_inj ((String.append_right_inj _).mp h)
  obtain ⟨-, hbalance⟩ := field_append_inj hamount
  obtain ⟨-, htype⟩ := field_append_inj hbalance
  obtain ⟨-, hid⟩ := field_append_inj htype
  obtain ⟨-, hleaf⟩ := field_append_inj hid
  obtain ⟨-, hseq⟩ := field_append_inj hleaf
  rw [String.append_right_inj, String.append_right_inj] at hseq
  have htime := seq_append_inj hseq
  rw [String.append_right_inj, String.append_right_inj] at htime
  exact (quote_append_inj htime).1

@[simp] theorem idOf_toValue (r : Row) : idOf r.toValue = some r.id := rfl

@[simp] theorem timestampOf_toValue (r : Row) : timestampOf r.toValue = r.timestamp := rfl

/-! ### The network -/

/-- A node. What it wrote itself, and the nodes whose writes its version of an id has been
compared with, are kept for the statements: no call reads them. -/
structure SyncNode (ι : Type*) where
  manager : LedgerSyncManager
  ledger : List Value
  wrote : String → Option Value
  heard : String → Finset ι

/-- A message that was sent, with what its sender had heard of about the ids it carries. -/
structure Sent (ι : Type*) where
  message : SyncMessage
  heard : String → Finset ι

/-- The nodes, and all messages sent so far. -/
structure SyncNet (ι : Type*) where
  node : ι → SyncNode ι
  sent : List (Sent ι)

/-- What happens in the network. An answer is made of the entries at some places of the
ledger. A message is delivered by its place among those sent. -/
inductive SyncNetEvent (ι : Type*)
  | write (i : ι) (r : Row)
  | updateLocalState (i : ι) (merkleRoot : String) (latestSeq : ℤ)
  | advertise (i : ι)
  | request (i : ι) (requestId peerId : String)
  | respond (i : ι) (requestId : String) (places : List ℕ)
  | deliver (place : ℕ) (i : ι) (now : ℕ)

variable {ι : Type*}

namespace SyncNode

/-- A node with an empty ledger. -/
def new (peerId : String) : SyncNode ι where
  manager := .new peerId
  ledger := []
  wrote := fun _ => none
  heard := fun _ => ∅

/-- Record an entry, which the table refuses when its id is taken. -/
def write (n : SyncNode ι) (i : ι) (r : Row) : SyncNode ι :=
  if r.id ∈ idsOf n.ledger then n
  else
    { n with
      ledger := n.ledger ++ [r.toValue]
      wrote := Function.update n.wrote r.id (some r.toValue)
      heard := Function.update n.heard r.id {i} }

/-- The entries at some places of the ledger. -/
def entriesAt (n : SyncNode ι) (places : List ℕ) : List Value :=
  places.filterMap fun place => n.ledger[place]?

/-- An answer to a request. -/
def respond (n : SyncNode ι) (requestId : String) (places : List ℕ) : Sent ι where
  message := .entryResponse requestId (n.entriesAt places)
  heard := fun id => if id ∈ idsOf (n.entriesAt places) then n.heard id else ∅

/-- Take a message: an advertised state is registered, an answer is processed and its
results are applied. -/
def receive [DecidableEq ι] (n : SyncNode ι) (now : ℕ) (sent : Sent ι) : SyncNode ι :=
  match sent.message with
  | .stateAdvert peerId merkleRoot latestSeq =>
      { n with manager := n.manager.registerPeerState now peerId merkleRoot latestSeq }
  | .entryResponse requestId entries =>
      let (results, manager) := n.manager.processEntries requestId entries n.ledger
      { n with
        manager := manager
        ledger := applyResults n.ledger results
        heard := fun id =>
          if (n.manager.pendingRequests.lookup requestId).isSome ∧ id ∈ idsOf n.ledger then
            n.heard id ∪ sent.heard id
          else n.heard id }
  | .entryRequest _ _ => n
  | .conflictNotify _ => n

end SyncNode

namespace SyncNet

/-- New nodes under their names. -/
def new (names : ι → String) : SyncNet ι where
  node i := .new (names i)
  sent := []

/-- Change one node. -/
def setNode [DecidableEq ι] (s : SyncNet ι) (i : ι) (n : SyncNode ι) : SyncNet ι :=
  { s with node := Function.update s.node i n }

/-- Send a message. -/
def send (s : SyncNet ι) (m : Sent ι) : SyncNet ι :=
  { s with sent := s.sent ++ [m] }

/-- One event. -/
def step [DecidableEq ι] (s : SyncNet ι) : SyncNetEvent ι → SyncNet ι
  | .write i r => s.setNode i ((s.node i).write i r)
  | .updateLocalState i merkleRoot latestSeq =>
      s.setNode i
        { s.node i with
          manager := (s.node i).manager.updateLocalState merkleRoot latestSeq }
  | .advertise i => s.send ⟨(s.node i).manager.createStateAdvert, fun _ => ∅⟩
  | .request i requestId peerId =>
      let (message, manager) := (s.node i).manager.createEntryRequest requestId peerId
      (s.setNode i { s.node i with manager := manager }).send ⟨message, fun _ => ∅⟩
  | .respond i requestId places => s.send ((s.node i).respond requestId places)
  | .deliver place i now =>
      match s.sent[place]? with
      | none => s
      | some m => s.setNode i ((s.node i).receive now m)

/-- What the nodes wrote under an id. -/
def wrote (s : SyncNet ι) (id : String) (i : ι) : Option Value :=
  (s.node i).wrote id

/-- A version of an id as it is held or carried: the entry of a row, and the latest of what
was heard of. -/
structure IsVersion (s : SyncNet ι) (id : String) (heard : Finset ι) (e : Value) : Prop where
  row : ∃ r : Row, e = r.toValue
  latest : IsLatest timestampOf (s.wrote id) heard e

/-- What holds of every message. -/
structure Carries (s : SyncNet ι) (heard : String → Finset ι) (entries : List Value) :
    Prop where
  one : OneVersionEach entries
  version : ∀ id, ∀ e ∈ entryFor entries id, s.IsVersion id (heard id) e
  unheard : ∀ id ∉ idsOf entries, heard id = ∅

/-- What holds between events. -/
structure Invariant (s : SyncNet ι) : Prop where
  ids : ∀ i, DistinctIds (s.node i).ledger
  wrote : ∀ id i, (s.wrote id i).isSome → id ∈ idsOf (s.node i).ledger
  held : ∀ i id, ∀ e ∈ entryFor (s.node i).ledger id, s.IsVersion id ((s.node i).heard id) e
  carried : ∀ m ∈ s.sent, ∀ requestId entries, m.message = .entryResponse requestId entries →
    s.Carries m.heard entries

variable {s t : SyncNet ι} {id : String} {heard heard' : Finset ι} {e f : Value}

/-- Writes are never changed. -/
def Grows (s t : SyncNet ι) : Prop :=
  ∀ id i u, s.wrote id i = some u → t.wrote id i = some u

theorem IsVersion.mono (h : s.IsVersion id heard e) (hgrows : s.Grows t) :
    t.IsVersion id heard e where
  row := h.row
  latest := h.latest.mono fun i _ u hu => hgrows id i u hu

theorem IsVersion.merge [DecidableEq ι] (he : s.IsVersion id heard e)
    (hf : s.IsVersion id heard' f) : s.IsVersion id (heard ∪ heard') (merge timestampOf e f) where
  row := by
    rw [LatestWins.merge]
    split
    · exact hf.row
    · exact he.row
  latest := he.latest.merge hf.latest

theorem IsVersion.timestamp_eq (he : s.IsVersion id heard e) (hf : s.IsVersion id heard' f)
    (h : e.toText = f.toText) : timestampOf e = timestampOf f := by
  obtain ⟨r, rfl⟩ := he.row
  obtain ⟨q, rfl⟩ := hf.row
  exact Row.timestamp_eq_of_text_eq h

theorem Carries.mono {heard : String → Finset ι} {entries : List Value}
    (h : s.Carries heard entries) (hgrows : s.Grows t) : t.Carries heard entries where
  one := h.one
  version id e he := (h.version id e he).mono hgrows
  unheard := h.unheard

theorem new_invariant (names : ι → String) : (new names).Invariant where
  ids _ := List.nodup_nil
  wrote _ _ hsome := by simp [SyncNet.wrote, new, SyncNode.new] at hsome
  held _ _ _ he := by simp [new, SyncNode.new, entryFor] at he
  carried _ hm := by simp [new] at hm

/-- A message that is no answer, or carries versions, may be sent. -/
theorem Invariant.send (hs : s.Invariant) {m : Sent ι}
    (hm : ∀ requestId entries, m.message = .entryResponse requestId entries →
      s.Carries m.heard entries) : (s.send m).Invariant where
  ids := hs.ids
  wrote := hs.wrote
  held i id e he := (hs.held i id e he).mono fun _ _ _ hu => hu
  carried m' hm' requestId entries hmessage := by
    have hsame : s.Grows (s.send m) := fun _ _ _ hu => hu
    rcases List.mem_append.mp hm' with hm' | hm'
    · exact (hs.carried m' hm' requestId entries hmessage).mono hsame
    · obtain rfl := List.mem_singleton.mp hm'
      exact (hm requestId entries hmessage).mono hsame

/-- A new entry at the end of a ledger is found under its id, when the ledger has none. -/
theorem entryFor_append (ledger : List Value) (r : Row) (id : String) :
    entryFor (ledger ++ [r.toValue]) id =
      (entryFor ledger id).or (if r.id = id then some r.toValue else none) := by
  rw [entryFor, List.find?_append, ← entryFor]
  by_cases hid : r.id = id
  · rw [if_pos hid, List.find?_cons_of_pos (by simp [hid])]
  · rw [if_neg hid, List.find?_cons_of_neg (by simp [hid]), List.find?_nil]

/-- An answer carries versions its sender holds. -/
theorem Invariant.carries_respond (hs : s.Invariant) (i : ι) (requestId : String)
    (places : List ℕ) :
    s.Carries ((s.node i).respond requestId places).heard ((s.node i).entriesAt places) := by
  have hsub : ∀ e ∈ (s.node i).entriesAt places, e ∈ (s.node i).ledger := by
    intro e he
    obtain ⟨place, -, hplace⟩ := List.mem_filterMap.mp he
    exact List.mem_of_getElem? hplace
  constructor
  · intro e he f hf hsome hid
    obtain ⟨id, hid'⟩ := Option.isSome_iff_exists.mp hsome
    exact (hs.ids i).eq_of_idOf_eq (hsub e he) (hsub f hf) hid' (hid ▸ hid')
  · intro id e he
    obtain ⟨hmem, hid⟩ := mem_of_entryFor he
    have hheard : ((s.node i).respond requestId places).heard id = (s.node i).heard id :=
      if_pos (mem_idsOf.mpr ⟨e, hmem, hid⟩)
    rw [hheard]
    exact hs.held i id e ((entryFor_eq_some_iff (hs.ids i)).mpr ⟨hsub e hmem, hid⟩)
  · exact fun id hid => if_neg hid

/-- Every version is still there, or replaced by one with a later timestamp. -/
def Advances (s t : SyncNet ι) : Prop :=
  ∀ i id, ∀ e ∈ entryFor (s.node i).ledger id,
    ∃ f ∈ entryFor (t.node i).ledger id, f = e ∨ timestampOf e < timestampOf f

theorem Advances.refl (s : SyncNet ι) : s.Advances s :=
  fun _ _ e he => ⟨e, he, Or.inl rfl⟩

theorem Advances.trans {u : SyncNet ι} (hst : s.Advances t) (htu : t.Advances u) :
    s.Advances u := by
  intro i id e he
  obtain ⟨f, hf, hef⟩ := hst i id e he
  obtain ⟨g, hg, hfg⟩ := htu i id f hf
  refine ⟨g, hg, ?_⟩
  rcases hef with rfl | hef
  · exact hfg
  · rcases hfg with rfl | hfg
    · exact Or.inr hef
    · exact Or.inr (hef.trans hfg)

section Step

variable [DecidableEq ι]

/-- Writes grow when those of a changed node do. -/
theorem grows_setNode {i : ι} {n : SyncNode ι}
    (h : ∀ id u, s.wrote id i = some u → n.wrote id = some u) : s.Grows (s.setNode i n) := by
  intro id j u hu
  rcases eq_or_ne j i with rfl | hne
  · simpa [SyncNet.wrote, SyncNet.setNode] using h id u hu
  · simpa [SyncNet.wrote, SyncNet.setNode, hne] using hu

/-- A changed node keeps the invariant when its ledger has distinct ids, its writes grow and
are of ids in the ledger, and it holds versions. -/
theorem Invariant.setNode (hs : s.Invariant) {i : ι} {n : SyncNode ι}
    (hids : DistinctIds n.ledger) (hgrows : ∀ id u, s.wrote id i = some u → n.wrote id = some u)
    (hwrote : ∀ id, (n.wrote id).isSome → id ∈ idsOf n.ledger)
    (hheld : ∀ id, ∀ e ∈ entryFor n.ledger id,
      (s.setNode i n).IsVersion id (n.heard id) e) : (s.setNode i n).Invariant := by
  have hall := grows_setNode hgrows
  constructor
  · intro j
    rcases eq_or_ne j i with rfl | hne
    · simpa [SyncNet.setNode] using hids
    · simpa [SyncNet.setNode, hne] using hs.ids j
  · intro id j hsome
    rcases eq_or_ne j i with rfl | hne
    · simp only [SyncNet.wrote, SyncNet.setNode, Function.update_self] at hsome ⊢
      exact hwrote id hsome
    · simp only [SyncNet.wrote, SyncNet.setNode, Function.update_of_ne hne] at hsome ⊢
      exact hs.wrote id j hsome
  · intro j id e he
    rcases eq_or_ne j i with rfl | hne
    · simp only [SyncNet.setNode, Function.update_self] at he ⊢
      exact hheld id e he
    · simp only [SyncNet.setNode, Function.update_of_ne hne] at he ⊢
      exact (hs.held j id e he).mono hall
  · intro m hm requestId entries hmessage
    exact (hs.carried m hm requestId entries hmessage).mono hall

/-- A change of the manager alone keeps the invariant. -/
theorem Invariant.setManager (hs : s.Invariant) (i : ι) (m : LedgerSyncManager) :
    (s.setNode i { s.node i with manager := m }).Invariant :=
  hs.setNode (hs.ids i) (fun _ _ hu => hu) (fun id => hs.wrote id i)
    fun id e he => (hs.held i id e he).mono (grows_setNode fun _ _ hu => hu)

/-- **A write** keeps the invariant. -/
theorem Invariant.write (hs : s.Invariant) (i : ι) (r : Row) :
    (s.setNode i ((s.node i).write i r)).Invariant := by
  rw [SyncNode.write]
  split
  · exact hs.setManager i (s.node i).manager
  · next hnew =>
    have hunwritten : s.wrote r.id i = none :=
      Option.not_isSome_iff_eq_none.mp fun hsome => hnew (hs.wrote r.id i hsome)
    have hheldNone := entryFor_eq_none_iff.mpr hnew
    have hgrows : ∀ id u, s.wrote id i = some u →
        Function.update (s.node i).wrote r.id (some r.toValue) id = some u := by
      intro id u hu
      rcases eq_or_ne id r.id with rfl | hne
      · rw [hunwritten] at hu
        cases hu
      · simpa [hne, SyncNet.wrote] using hu
    refine hs.setNode ?_ hgrows ?_ ?_
    · have hids := hs.ids i
      rw [DistinctIds] at hids ⊢
      rw [List.filterMap_append]
      refine hids.append (by simp) ?_
      simpa [idsOf] using hnew
    · intro id hsome
      rcases eq_or_ne id r.id with rfl | hne
      · exact mem_idsOf.mpr ⟨r.toValue, by simp, rfl⟩
      · obtain ⟨e, he, hid⟩ := mem_idsOf.mp
          (hs.wrote id i (by simpa [hne, SyncNet.wrote] using hsome))
        exact mem_idsOf.mpr ⟨e, List.mem_append_left _ he, hid⟩
    · intro id e he
      rw [entryFor_append] at he
      rcases eq_or_ne r.id id with rfl | hne
      · rw [hheldNone, Option.none_or, if_pos rfl, Option.mem_some_iff] at he
        subst he
        simp only [Function.update_self]
        exact ⟨⟨r, rfl⟩, IsLatest.singleton (by simp [SyncNet.wrote, SyncNet.setNode])⟩
      · rw [if_neg hne, Option.or_none] at he
        simp only [Function.update_of_ne hne.symm]
        exact (hs.held i id e he).mono (grows_setNode hgrows)

/-- What a message does to the node that takes it: nothing to its ledger, or its version of
each id is merged with the one that arrives. -/
theorem Invariant.receive_cases (hs : s.Invariant) (i : ι) (now : ℕ) {m : Sent ι}
    (hm : m ∈ s.sent) :
    (∃ manager, (s.node i).receive now m = { s.node i with manager := manager }) ∨
      ∃ entries, s.Carries m.heard entries ∧
        ((s.node i).receive now m).wrote = (s.node i).wrote ∧
        idsOf ((s.node i).receive now m).ledger = idsOf (s.node i).ledger ∧
        (∀ id ∈ idsOf (s.node i).ledger,
          ((s.node i).receive now m).heard id = (s.node i).heard id ∪ m.heard id) ∧
        ∀ id, entryFor ((s.node i).receive now m).ledger id =
          (entryFor (s.node i).ledger id).map fun held =>
            (entryFor entries id).elim held (LatestWins.merge timestampOf held) := by
  rw [SyncNode.receive]
  split
  · exact Or.inl ⟨_, rfl⟩
  · next requestId entries hmessage =>
    have hcarries := hs.carried m hm requestId entries hmessage
    by_cases hpending : ((s.node i).manager.pendingRequests.lookup requestId).isSome
    · refine Or.inr ⟨entries, hcarries, rfl, ?_, fun id hid => if_pos ⟨hpending, hid⟩,
        fun id => ?_⟩
      · refine idsOf_applyResults fun result hresult => ?_
        obtain ⟨id, hid, hmem⟩ := LedgerSyncManager.id_of_mem_processEntries hresult
        exact ⟨id, hid, mem_idsOf.mpr hmem⟩
      · exact entryFor_processed hpending (hs.ids i) hcarries.one fun d hd f hf htext =>
          (hs.held i id d hd).timestamp_eq (hcarries.version id f hf) htext
    · refine Or.inl ⟨(s.node i).manager, ?_⟩
      simp only [LedgerSyncManager.processEntries_of_not_pending hpending,
        if_neg fun h : _ ∧ _ => hpending h.1]
      rfl
  · exact Or.inl ⟨_, rfl⟩
  · exact Or.inl ⟨_, rfl⟩

/-- **A message** that arrives keeps the invariant. -/
theorem Invariant.receive (hs : s.Invariant) (i : ι) (now : ℕ) {m : Sent ι} (hm : m ∈ s.sent) :
    (s.setNode i ((s.node i).receive now m)).Invariant := by
  rcases hs.receive_cases i now hm with
    ⟨manager, hsame⟩ | ⟨entries, hcarries, hwrote, hsame, hheard, hentry⟩
  · rw [hsame]
    exact hs.setManager i manager
  · have hgrows : ∀ id u, s.wrote id i = some u →
        ((s.node i).receive now m).wrote id = some u := by
      rw [hwrote]
      exact fun _ _ hu => hu
    refine hs.setNode ?_ hgrows ?_ ?_
    · have hids := hs.ids i
      rw [DistinctIds, ← idsOf] at hids ⊢
      rwa [hsame]
    · intro id hsome
      rw [hwrote] at hsome
      rw [hsame]
      exact hs.wrote id i hsome
    · intro id e he
      rw [hentry] at he
      obtain ⟨d, hd, rfl⟩ := Option.map_eq_some_iff.mp he
      have hversion := hs.held i id d hd
      rw [hheard id (mem_idsOf.mpr ⟨d, mem_of_entryFor hd⟩)]
      refine IsVersion.mono ?_ (grows_setNode hgrows)
      cases hf : entryFor entries id with
      | none =>
          rw [hcarries.unheard id (entryFor_eq_none_iff.mp hf), Finset.union_empty]
          exact hversion
      | some f => exact hversion.merge (hcarries.version id f hf)

/-- **The step**: every event keeps the invariant. -/
theorem Invariant.step (hs : s.Invariant) (event : SyncNetEvent ι) : (s.step event).Invariant := by
  cases event with
  | write i r => exact hs.write i r
  | updateLocalState i merkleRoot latestSeq => exact hs.setManager i _
  | advertise i => exact hs.send (by simp [LedgerSyncManager.createStateAdvert])
  | request i requestId peerId =>
      exact (hs.setManager i _).send (by simp)
  | respond i requestId places =>
      refine hs.send fun id entries hmessage => ?_
      obtain ⟨-, rfl⟩ := SyncMessage.entryResponse.inj hmessage
      exact hs.carries_respond i requestId places
  | deliver place i now =>
      rw [SyncNet.step]
      split
      · exact hs
      · next m hm => exact hs.receive i now (List.mem_of_getElem? hm)

/-- After any run the invariant holds. -/
theorem invariant_run (names : ι → String) (events : List (SyncNetEvent ι)) :
    (events.foldl step (new names)).Invariant :=
  Runs.invariant_foldl step (G := fun _ _ => True) (fun _ event hs _ => hs.step event)
    (new_invariant names) fun _ _ => trivial

/-- **Convergence**: after any run, whatever was lost, repeated or delivered out of order,
the version of an id that a node holds is one that a node it has heard of wrote, and none of
these wrote one with a later timestamp. Two nodes that have heard of the same nodes hold the
same version, unless two of these wrote different versions with one timestamp. -/
theorem versions_converge (names : ι → String) (events : List (SyncNetEvent ι)) (id : String) :
    let s := events.foldl step (new names)
    (∀ i, ∀ e ∈ (s.node i).ledger, idOf e = some id →
      (∃ j ∈ (s.node i).heard id, (s.node j).wrote id = some e) ∧
        ∀ j ∈ (s.node i).heard id, ∃ f, (s.node j).wrote id = some f ∧
          timestampOf f ≤ timestampOf e) ∧
    ∀ i j, (s.node i).heard id = (s.node j).heard id →
      NoTies timestampOf (s.wrote id) ((s.node i).heard id) →
        ∀ e ∈ (s.node i).ledger, ∀ f ∈ (s.node j).ledger,
          idOf e = some id → idOf f = some id → e = f := by
  intro s
  have hs : s.Invariant := invariant_run names events
  have hheld : ∀ i, ∀ e ∈ (s.node i).ledger, idOf e = some id →
      IsLatest timestampOf (s.wrote id) ((s.node i).heard id) e := fun i e he hid =>
    (hs.held i id e ((entryFor_eq_some_iff (hs.ids i)).mpr ⟨he, hid⟩)).latest
  constructor
  · intro i e he hid
    exact ⟨(hheld i e he hid).written, (hheld i e he hid).le⟩
  · intro i j hheard hties e he f hf hide hidf
    have hlatest := hheld j f hf hidf
    rw [← hheard] at hlatest
    exact (hheld i e he hide).eq_of_heard_eq hties hlatest

/-- A changed node advances the versions when its own advance. -/
theorem advances_setNode {i : ι} {n : SyncNode ι}
    (h : ∀ id, ∀ e ∈ entryFor (s.node i).ledger id,
      ∃ f ∈ entryFor n.ledger id, f = e ∨ timestampOf e < timestampOf f) :
    s.Advances (s.setNode i n) := by
  intro j id e he
  rcases eq_or_ne j i with rfl | hne
  · simpa [SyncNet.setNode] using h id e he
  · simpa [SyncNet.setNode, hne] using Advances.refl s j id e he

/-- **One event** advances the versions. -/
theorem Invariant.advances_step (hs : s.Invariant) (event : SyncNetEvent ι) :
    s.Advances (s.step event) := by
  cases event with
  | write i r =>
      refine advances_setNode fun id e he => ?_
      rw [SyncNode.write]
      split
      · exact ⟨e, he, Or.inl rfl⟩
      · refine ⟨e, ?_, Or.inl rfl⟩
        rw [entryFor_append, Option.mem_def, Option.mem_def.mp he, Option.some_or]
  | updateLocalState i merkleRoot latestSeq =>
      exact advances_setNode fun _ e he => ⟨e, he, Or.inl rfl⟩
  | advertise i => exact Advances.refl s
  | request i requestId peerId =>
      exact advances_setNode (s := s) fun _ e he => ⟨e, he, Or.inl rfl⟩
  | respond i requestId places => exact Advances.refl s
  | deliver place i now =>
      rw [SyncNet.step]
      split
      · exact Advances.refl s
      · next m hm =>
        refine advances_setNode fun id e he => ?_
        rcases hs.receive_cases i now (List.mem_of_getElem? hm) with
          ⟨manager, hsame⟩ | ⟨entries, -, -, -, -, hentry⟩
        · rw [hsame]
          exact ⟨e, he, Or.inl rfl⟩
        · rw [hentry, Option.mem_def.mp he]
          refine ⟨_, rfl, ?_⟩
          cases entryFor entries id with
          | none => exact Or.inl rfl
          | some f => exact merge_eq_or_lt e f

/-- A deposit that two nodes have in two versions: the second node's is the later one. -/
def tornDeposit (timestamp : String) : Row where
  id := "tx1"
  entryType := "deposit"
  accountId := "acc1"
  amount := "100.00"
  balanceAfter := "100.00"
  timestamp := timestamp
  merkleLeaf := "leaf1"
  seq := 1
  synced := false

/-- The nodes ask each other; the answer to the first arrives twice. -/
def tornEvents : List (SyncNetEvent (Fin 2)) :=
  [.write 0 (tornDeposit "2024-01-01T00:00:00Z"), .write 1 (tornDeposit "2024-01-01T01:00:00Z"),
    .request 0 "req1" "peer2", .request 1 "req2" "peer1", .respond 1 "req1" [0],
    .respond 0 "req2" [0, 0], .deliver 2 0 0, .deliver 2 0 0, .deliver 3 1 0]

theorem versions_converge_torn :
    let s := tornEvents.foldl step (new fun i => if i = 0 then "peer1" else "peer2")
    ∀ e ∈ (s.node 0).ledger, ∀ f ∈ (s.node 1).ledger,
      idOf e = some "tx1" → idOf f = some "tx1" → e = f := by
  refine (versions_converge (fun i : Fin 2 => if i = 0 then "peer1" else "peer2") tornEvents
    "tx1").2 0 1 (by decide +kernel) ?_
  intro i _ j _ u v hu hv hkey
  have htimes : ∀ i j : Fin 2, i ≠ j →
      ((tornEvents.foldl step (new fun i => if i = 0 then "peer1" else "peer2")).wrote "tx1"
        i).map timestampOf ≠
      ((tornEvents.foldl step (new fun i => if i = 0 then "peer1" else "peer2")).wrote "tx1"
        j).map timestampOf := by decide +kernel
  by_cases hij : i = j
  · subst hij
    exact Option.some.inj (hu.symm.trans hv)
  · refine absurd ?_ (htimes i j hij)
    rw [hu, hv, Option.map_some, Option.map_some, hkey]

/-- **Versions only get later**: what a node holds under an id at one moment it holds at
every later moment of the run, or an entry with the id and a later timestamp. -/
theorem versions_advance (names : ι → String) (earlier later : List (SyncNetEvent ι)) (i : ι)
    (id : String) :
    ∀ e ∈ ((earlier.foldl step (new names)).node i).ledger, idOf e = some id →
      ∃ f ∈ (((earlier ++ later).foldl step (new names)).node i).ledger, idOf f = some id ∧
        (f = e ∨ timestampOf e < timestampOf f) := by
  intro e he hid
  have hstart := invariant_run names earlier
  have hadvances : (earlier.foldl step (new names)).Advances
      ((earlier ++ later).foldl step (new names)) := by
    rw [List.foldl_append]
    refine (Runs.invariant_foldl step (G := fun _ _ => True)
      (I := fun t => t.Invariant ∧ (earlier.foldl step (new names)).Advances t)
      (fun t event ht _ => ?_) ⟨hstart, Advances.refl _⟩ fun _ _ => trivial).2
    exact ⟨ht.1.step event, ht.2.trans (ht.1.advances_step event)⟩
  obtain ⟨f, hf, hlater⟩ :=
    hadvances i id e ((entryFor_eq_some_iff (hstart.ids i)).mpr ⟨he, hid⟩)
  obtain ⟨hmem, hfid⟩ := mem_of_entryFor hf
  exact ⟨f, hmem, hfid, hlater⟩

/-- The answer that arrives twice replaces the first deposit by the later one. -/
theorem versions_advance_torn :
    let names : Fin 2 → String := fun i => if i = 0 then "peer1" else "peer2"
    ∃ f ∈ ((tornEvents.foldl step (new names)).node 0).ledger, idOf f = some "tx1" ∧
      (f = (tornDeposit "2024-01-01T00:00:00Z").toValue ∨
        timestampOf (tornDeposit "2024-01-01T00:00:00Z").toValue < timestampOf f) :=
  versions_advance _ (tornEvents.take 1) (tornEvents.drop 1) 0 "tx1" _
    (List.mem_singleton_self _) (by decide +kernel)

end Step

end SyncNet

end VaultKeeper
