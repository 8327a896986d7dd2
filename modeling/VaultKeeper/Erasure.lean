import Mathlib.Data.List.Dedup
import Mathlib.Data.List.Perm.Subperm
import VaultKeeper.ReedSolomon

/-!
# Erasure Coding

`core/src/erasure.rs`: data is padded with zeros to a multiple of three bytes, cut into
three shards, and given two parity shards; any three of the five give it back, padding
included. Empty data is encoded as five empty shards, which the coder refuses to
reconstruct.

## Main results

* `Erasure.encode_ok`: the shards of data that is not empty are a codeword that starts
  with the padded data.
* `Erasure.reconstruct_ok`: three shards of a codeword give back its data shards.
* `Erasure.reconstruct_encode_iff`: which data three shards give back.
* `Erasure.reconstruct_agree`: two selections of three shards or more give the same.
-/

namespace VaultKeeper

open ErasureCode

/-- The errors of the erasure coding. -/
inductive ErasureError
  | tooFewShards (got : ℕ)
  | noShards
  | indexOutOfRange (idx : ℕ)
  | encodingFailed (e : RsError)
  | reconstructionFailed (e : RsError)
deriving DecidableEq

/-- The text of an error. -/
def ErasureError.text : ErasureError → String
  | .tooFewShards got =>
      "Need at least " ++ toString rsDataShards ++ " shards to reconstruct, got " ++ toString got
  | .noShards => "No shards provided"
  | .indexOutOfRange idx =>
      "Shard index " ++ toString idx ++ " out of range (max " ++ toString (rsTotalShards - 1) ++ ")"
  | .encodingFailed _ => "Reed-Solomon encoding failed"
  | .reconstructionFailed _ => "Reed-Solomon reconstruction failed"

namespace Erasure

/-- `Vec::resize(n, 0)`. -/
def resize (l : Bytes) (n : ℕ) : Bytes :=
  (l ++ List.replicate (n - l.length) 0).take n

/-- `chunks_exact(n)`: the chunks of `n` bytes, without a shorter rest. -/
def chunksExact (n : ℕ) (l : Bytes) : List Bytes :=
  (List.range (l.length / n)).map fun i => (l.drop (i * n)).take n

/-- Encode data into data shards and parity shards. -/
def encode (rs : ReedSolomon) (data : Bytes) : Except ErasureError (List Bytes) :=
  if data = [] then .ok (List.replicate rsTotalShards [])
  else
    let totalLen := (data.length + rsDataShards - 1) / rsDataShards * rsDataShards
    let padded := resize data totalLen
    let shardSize := totalLen / rsDataShards
    let shards := chunksExact shardSize padded ++
      List.replicate rsParityShards (List.replicate shardSize 0)
    match rs.encode shards with
    | .error e => .error (.encodingFailed e)
    | .ok shards => .ok shards

/-- The loop over the shards that were received. -/
def placeShards : List (Option Bytes) → List (ℕ × Bytes) →
    Except ErasureError (List (Option Bytes))
  | shards, [] => .ok shards
  | shards, (idx, data) :: rest =>
      if rsTotalShards ≤ idx then .error (.indexOutOfRange idx)
      else placeShards (shards.set idx (some data)) rest

/-- Reconstruct original data from a subset of shards, given with their indices. -/
def reconstruct (rs : ReedSolomon) (shardData : List (ℕ × Bytes)) : Except ErasureError Bytes :=
  if shardData.length < rsDataShards then .error (.tooFewShards shardData.length)
  else if shardData = [] then .error .noShards
  else
    match placeShards (List.replicate rsTotalShards none) shardData with
    | .error e => .error e
    | .ok shards =>
        match rs.reconstruct shards with
        | .error e => .error (.reconstructionFailed e)
        | .ok shards => .ok ((shards.take rsDataShards).flatMap fun shard => shard.getD [])

/-- The zero bytes that pad a length to a multiple of three. -/
def padding (len : ℕ) : Bytes :=
  List.replicate ((3 - len % 3) % 3) 0

/-- The pairs are shards of the list with their indices. -/
def SelectedFrom (shards : List Bytes) (selection : List (ℕ × Bytes)) : Prop :=
  ∀ p ∈ selection, shards[p.1]? = some p.2

/-! ### Encoding -/

/-- Three chunks of a third of the length each are the whole. -/
theorem chunksExact_third {n : ℕ} {l : Bytes} (hn : 0 < n) (h : l.length = 3 * n) :
    ∃ x y z, chunksExact n l = [x, y, z] ∧ x.length = n ∧ y.length = n ∧ z.length = n ∧
      x ++ y ++ z = l := by
  have hcount : l.length / n = 3 := by rw [h, Nat.mul_div_cancel _ hn]
  refine ⟨l.take n, (l.drop n).take n, (l.drop (2 * n)).take n, ?_, ?_, ?_, ?_, ?_⟩
  · rw [chunksExact, hcount]
    simp [List.range_succ]
  · rw [List.length_take]
    omega
  · rw [List.length_take, List.length_drop]
    omega
  · rw [List.length_take, List.length_drop]
    omega
  · have hlast : (l.drop (2 * n)).take n = l.drop (2 * n) :=
      List.take_of_length_le (by rw [List.length_drop]; omega)
    rw [hlast, ← List.take_add, ← two_mul, List.take_append_drop]

/-- **Encoding**: the shards are a codeword, and the data shards are the padded data. -/
theorem encode_ok {rs : ReedSolomon} (hrs : rs.Documented) {data : Bytes} (hne : data ≠ []) :
    ∃ n c, 0 < n ∧ encode rs data = .ok c ∧ rs.IsCodeword n c ∧
      (c.take rsDataShards).flatten = data ++ padding data.length := by
  have hpos : 0 < data.length := List.length_pos_iff.mpr hne
  obtain ⟨n, hn⟩ : ∃ n, n = (data.length + 2) / 3 := ⟨_, rfl⟩
  have htotal : (data.length + rsDataShards - 1) / rsDataShards * rsDataShards = 3 * n := by
    simp only [rsDataShards]
    omega
  have hpadded : resize data (3 * n) = data ++ padding data.length := by
    have hzeros : 3 * n - data.length = (3 - data.length % 3) % 3 := by omega
    rw [resize, padding, ← hzeros]
    exact List.take_of_length_le (by simp; omega)
  have hlen : (resize data (3 * n)).length = 3 * n := by
    rw [hpadded, padding, List.length_append, List.length_replicate]
    omega
  obtain ⟨x, y, z, hchunks, hx, hy, hz, hxyz⟩ := chunksExact_third (n := n) (by omega) hlen
  obtain ⟨c, henc, hcode, hdata⟩ := hrs.encode_ok n
    ([x, y, z] ++ List.replicate rsParityShards (List.replicate n 0)) (by omega) rfl
    (by simp [rsParityShards, List.replicate_succ, hx, hy, hz])
  refine ⟨n, c, by omega, ?_, hcode, ?_⟩
  · have hsize : 3 * n / rsDataShards = n := by
      rw [rsDataShards]
      omega
    rw [encode, if_neg hne]
    simp only [htotal, hsize, hchunks, henc]
  · rw [hdata, ← hpadded, ← hxyz]
    simp [rsDataShards]

/-! ### Placing the shards -/

/-- **Placing**: shards of a codeword are found where their indices say, and the other places
keep what they had. -/
theorem placeShards_ok {code : List Bytes} (hc : code.length = rsTotalShards)
    {selection : List (ℕ × Bytes)} (h : SelectedFrom code selection) {base : List (Option Bytes)}
    (hbase : base.length = rsTotalShards) :
    ∃ shards, placeShards base selection = .ok shards ∧ ∀ i,
      shards[i]? = if i ∈ selection.map Prod.fst then some code[i]? else base[i]? := by
  induction selection generalizing base with
  | nil => exact ⟨base, rfl, by simp⟩
  | cons p rest ih =>
      obtain ⟨idx, data⟩ := p
      have hdata : code[idx]? = some data := h (idx, data) (List.mem_cons_self ..)
      have hidx : idx < rsTotalShards := hc ▸ (List.getElem?_eq_some_iff.mp hdata).1
      obtain ⟨shards, hplace, hget⟩ := @ih (fun p hp => h p (List.mem_cons_of_mem _ hp))
        (base.set idx (some data)) (by rw [List.length_set, hbase])
      refine ⟨shards, by rw [placeShards, if_neg (not_le.mpr hidx), hplace], fun i => ?_⟩
      rw [hget]
      simp only [List.map_cons, List.mem_cons]
      by_cases hrest : i ∈ rest.map Prod.fst
      · simp [hrest]
      · by_cases hi : i = idx
        · subst hi
          simp [hrest, hdata, hbase, hidx]
        · simp [hrest, hi, Ne.symm hi]

/-- The shards of a selection, each in its place. -/
theorem placeShards_none {code : List Bytes} (hc : code.length = rsTotalShards)
    {selection : List (ℕ × Bytes)} (h : SelectedFrom code selection) :
    placeShards (List.replicate rsTotalShards none) selection =
      .ok ((List.range rsTotalShards).map fun i =>
        if i ∈ selection.map Prod.fst then code[i]? else none) := by
  obtain ⟨shards, hplace, hget⟩ := @placeShards_ok code hc selection h
    (List.replicate rsTotalShards none) (by simp)
  rw [hplace]
  refine congrArg Except.ok (List.ext_getElem? fun i => ?_)
  rw [hget, List.getElem?_map, List.getElem?_replicate]
  by_cases hi : i < rsTotalShards
  · rw [if_pos hi, List.getElem?_range hi, Option.map_some]
    split <;> rfl
  · have hnot : i ∉ selection.map Prod.fst := by
      intro hmem
      obtain ⟨p, hp, rfl⟩ := List.mem_map.mp hmem
      exact hi (hc ▸ (List.getElem?_eq_some_iff.mp (h p hp)).1)
    rw [if_neg hnot, if_neg hi, List.getElem?_eq_none (by simpa using hi), Option.map_none]

/-- The placed shards of a selection from a codeword fit it. -/
theorem fits_placed {code : List Bytes} (idxs : List ℕ) :
    Fits ((List.range code.length).map fun i => if i ∈ idxs then code[i]? else none) code := by
  rw [Fits, List.forall₂_iff_get]
  refine ⟨by simp, fun i hi hic y hy => ?_⟩
  simp only [List.get_eq_getElem, List.getElem_map, List.getElem_range,
    Option.mem_ite_none_right] at hy
  simpa [hic, eq_comm] using hy.2

/-- As many shards are known as distinct indices were given. -/
theorem length_dedup_le_known {code : List Bytes} {idxs : List ℕ}
    (h : ∀ i ∈ idxs, i < code.length) :
    idxs.dedup.length ≤
      known ((List.range code.length).map fun i => if i ∈ idxs then code[i]? else none) := by
  have hknown : known ((List.range code.length).map fun i => if i ∈ idxs then code[i]? else none) =
      ((List.range code.length).filter fun i => i ∈ idxs).length := by
    rw [known, List.countP_map, ← List.countP_eq_length_filter]
    refine List.countP_congr fun i hi => ?_
    have hlt := List.mem_range.mp hi
    by_cases hmem : i ∈ idxs <;> simp [hmem, hlt]
  rw [hknown]
  refine (List.subperm_of_subset (List.nodup_dedup idxs) fun i hi => ?_).length_le
  have hmem := List.mem_dedup.mp hi
  simp [hmem, h i hmem]

/-! ### Reconstruction -/

/-- A decoder that is given enough shards of a codeword of shards that are not empty returns
its data shards. -/
theorem reconstruct_ok {rs : ReedSolomon} (hrs : rs.Documented) {n : ℕ} (hn : 0 < n)
    {code : List Bytes} (hc : rs.IsCodeword n code) {selection : List (ℕ × Bytes)}
    (h : SelectedFrom code selection)
    (hthree : rsDataShards ≤ (selection.map Prod.fst).dedup.length) :
    reconstruct rs selection = .ok (code.take rsDataShards).flatten := by
  have hlen : rsDataShards ≤ selection.length := by
    refine hthree.trans ?_
    simpa using (List.dedup_sublist (selection.map Prod.fst)).length_le
  have hne : selection ≠ [] := by
    rintro rfl
    simp [rsDataShards] at hlen
  have hidxs : ∀ i ∈ selection.map Prod.fst, i < code.length := by
    intro i hi
    obtain ⟨p, hp, rfl⟩ := List.mem_map.mp hi
    exact (List.getElem?_eq_some_iff.mp (h p hp)).1
  have hrec := hrs.reconstruct_ok n code _ hn hc (fits_placed (selection.map Prod.fst))
    (hthree.trans (length_dedup_le_known hidxs))
  rw [hc.count] at hrec
  rw [reconstruct, if_neg (not_lt.mpr hlen), if_neg hne, placeShards_none hc.count h]
  simp only [hrec]
  rw [List.flatMap_def, ← List.map_take, List.map_map]
  simp [Function.comp_def]

/-- A decoder that is given an empty shard fails. -/
theorem reconstruct_empty {rs : ReedSolomon} (hrs : rs.Documented)
    {selection : List (ℕ × Bytes)}
    (h : SelectedFrom (List.replicate rsTotalShards []) selection) (hne : selection ≠ []) :
    ∃ e, reconstruct rs selection = .error e := by
  rw [reconstruct]
  by_cases hlen : selection.length < rsDataShards
  · exact ⟨_, if_pos hlen⟩
  · rw [if_neg hlen, if_neg hne, placeShards_none (by simp) h]
    obtain ⟨p, rest, rfl⟩ := List.exists_cons_of_ne_nil hne
    have hp := List.getElem?_eq_some_iff.mp (h p (List.mem_cons_self ..))
    have hidx : p.1 < rsTotalShards := by simpa using hp.1
    obtain ⟨e, he⟩ := hrs.reconstruct_emptyShard _ (List.mem_map.mpr
      ⟨p.1, List.mem_range.mpr hidx, by simp [hidx]⟩ : some [] ∈
        (List.range rsTotalShards).map fun i => if i ∈ (p :: rest).map Prod.fst then
          (List.replicate rsTotalShards [])[i]? else none)
    exact ⟨.reconstructionFailed e, by simp only [he]⟩

/-- Three distinct indices are not those of an empty selection. -/
theorem ne_nil_of_three {selection : List (ℕ × Bytes)}
    (h : 3 ≤ (selection.map Prod.fst).dedup.length) : selection ≠ [] := by
  rintro rfl
  simp at h

/-- The shards of data that is not empty give it back with its padding. -/
theorem reconstruct_encode {rs : ReedSolomon} (hrs : rs.Documented) {data : Bytes}
    (hne : data ≠ []) :
    ∃ shards, encode rs data = .ok shards ∧ ∀ selection, SelectedFrom shards selection →
      rsDataShards ≤ (selection.map Prod.fst).dedup.length →
        reconstruct rs selection = .ok (data ++ padding data.length) := by
  obtain ⟨n, c, hn, henc, hc, hflat⟩ := encode_ok hrs hne
  refine ⟨c, henc, fun selection h hthree => ?_⟩
  rw [reconstruct_ok hrs hn hc h hthree, hflat]

/-- **Recovery**: data is encoded, and from any selection of its shards with three distinct
indices the decoder returns it with its padding exactly when it is not empty. -/
theorem reconstruct_encode_iff {rs : ReedSolomon} (hrs : rs.Documented) (data : Bytes) :
    ∃ shards, encode rs data = .ok shards ∧ ∀ selection, SelectedFrom shards selection →
      3 ≤ (selection.map Prod.fst).dedup.length →
        (reconstruct rs selection = .ok (data ++ padding data.length) ↔ data ≠ []) := by
  by_cases hdata : data = []
  · refine ⟨List.replicate rsTotalShards [], by rw [encode, if_pos hdata], ?_⟩
    intro selection h hthree
    obtain ⟨e, he⟩ := reconstruct_empty hrs h (ne_nil_of_three hthree)
    exact iff_of_false (by simp [he]) (not_not.mpr hdata)
  · obtain ⟨shards, henc, hrec⟩ := reconstruct_encode hrs hdata
    exact ⟨shards, henc, fun selection h hthree => iff_of_true (hrec selection h hthree) hdata⟩

theorem encode_byte :
    encode .galois8 [1] = .ok [[1], [0], [0], [1], [15]] := by
  decide +kernel

theorem reconstruct_encode_iff_byte :
    reconstruct .galois8 [(4, [15]), (3, [1]), (1, [0]), (3, [1])] = .ok ([1] ++ padding 1) ↔
      [(1 : UInt8)] ≠ [] := by
  obtain ⟨shards, henc, hrec⟩ := reconstruct_encode_iff ReedSolomon.galois8_documented [1]
  obtain rfl := Except.ok.inj (encode_byte.symm.trans henc)
  exact hrec _ (by simp [SelectedFrom]) (by decide)

/-- **Agreement**: data is encoded, and from any two selections of its shards with three
distinct indices each, the decoder returns the same bytes or fails both times. -/
theorem reconstruct_agree {rs : ReedSolomon} (hrs : rs.Documented) (data : Bytes) :
    ∃ shards, encode rs data = .ok shards ∧ ∀ first second,
      SelectedFrom shards first → SelectedFrom shards second →
        3 ≤ (first.map Prod.fst).dedup.length → 3 ≤ (second.map Prod.fst).dedup.length →
          (reconstruct rs first).toOption = (reconstruct rs second).toOption := by
  by_cases hdata : data = []
  · refine ⟨List.replicate rsTotalShards [], by rw [encode, if_pos hdata], ?_⟩
    intro first second hfirst hsecond hthree hthree'
    obtain ⟨e, he⟩ := reconstruct_empty hrs hfirst (ne_nil_of_three hthree)
    obtain ⟨e', he'⟩ := reconstruct_empty hrs hsecond (ne_nil_of_three hthree')
    rw [he, he']
    rfl
  · obtain ⟨shards, henc, hrec⟩ := reconstruct_encode hrs hdata
    refine ⟨shards, henc, fun first second hfirst hsecond hthree hthree' => ?_⟩
    rw [hrec first hfirst hthree, hrec second hsecond hthree']

theorem reconstruct_agree_byte :
    (reconstruct .galois8 [(4, [15]), (3, [1]), (1, [0]), (3, [1])]).toOption =
      (reconstruct .galois8 [(0, [1]), (1, [0]), (2, [0])]).toOption := by
  obtain ⟨shards, henc, hagree⟩ := reconstruct_agree ReedSolomon.galois8_documented [1]
  obtain rfl := Except.ok.inj (encode_byte.symm.trans henc)
  exact hagree _ _ (by simp [SelectedFrom]) (by simp [SelectedFrom]) (by decide) (by decide)

/-- The five empty shards of empty data do not give it back. -/
theorem empty_not_reconstructed :
    ¬ ∀ rs : ReedSolomon, rs.Documented → ∀ data shards, encode rs data = .ok shards →
      ∀ selection, SelectedFrom shards selection →
        3 ≤ (selection.map Prod.fst).dedup.length →
          reconstruct rs selection = .ok (data ++ padding data.length) := by
  intro hall
  have hok := hall _ ReedSolomon.galois8_documented [] _ rfl [(0, []), (1, []), (2, [])]
    (by simp [SelectedFrom, rsTotalShards, rsDataShards, rsParityShards]) (by decide)
  exact absurd hok (by decide +kernel)

end Erasure

end VaultKeeper
