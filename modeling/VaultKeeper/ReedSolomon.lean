import Mathlib.Data.List.Defs
import Mathlib.Data.List.ReduceOption
import VaultKeeper.ErasureCode
import VaultKeeper.Types

/-!
# Reed–Solomon Coding

`reed-solomon-erasure` is not part of the repository, so the coder made by
`ReedSolomon::new(3, 2)` enters as two functions, with what its documentation says of them
(`ReedSolomon.Documented`): encoding keeps the data shards and computes the parity shards,
reconstruction fills the missing shards of a codeword, and refuses an empty shard.

`ReedSolomon.galois8` is the coder itself, for the inputs the documentation speaks of. Its
matrix is the identity over the rows `1 1 1` and `15 8 6` of the field of 256 elements,
and any three symbols of its words determine the other two.

## Main results

* `byteCode_determinedBy`: any three symbols of a word determine it.
* `galois8_documented`: the coder does what its documentation says.
-/

namespace VaultKeeper

open ErasureCode

/-- Number of data shards for Reed-Solomon. -/
def rsDataShards : ℕ := 3

/-- Number of parity shards for Reed-Solomon. -/
def rsParityShards : ℕ := 2

/-- Total shards. -/
def rsTotalShards : ℕ := rsDataShards + rsParityShards

/-- The errors of the coder. -/
inductive RsError
  | tooFewShards
  | tooManyShards
  | tooFewShardsPresent
  | emptyShard
  | incorrectShardSize
deriving DecidableEq

/-- A coder of three data shards and two parity shards. -/
structure ReedSolomon where
  encode : List Bytes → Except RsError (List Bytes)
  reconstruct : List (Option Bytes) → Except RsError (List (Option Bytes))

namespace ReedSolomon

/-- Shards of `n` bytes whose parity shards are what the coder computes. -/
structure IsCodeword (rs : ReedSolomon) (n : ℕ) (shards : List Bytes) : Prop where
  count : shards.length = rsTotalShards
  size : ∀ s ∈ shards, s.length = n
  parity : rs.encode shards = .ok shards

/-- What the documentation of the coder says. -/
structure Documented (rs : ReedSolomon) : Prop where
  encode_ok : ∀ n shards, 0 < n → shards.length = rsTotalShards →
    (∀ s ∈ shards, s.length = n) → ∃ c, rs.encode shards = .ok c ∧ rs.IsCodeword n c ∧
      c.take rsDataShards = shards.take rsDataShards
  reconstruct_ok : ∀ n c shards, 0 < n → rs.IsCodeword n c → Fits shards c →
    rsDataShards ≤ known shards → rs.reconstruct shards = .ok (c.map some)
  reconstruct_emptyShard : ∀ shards, some [] ∈ shards → ∃ e, rs.reconstruct shards = .error e

end ReedSolomon

/-! ### The field of 256 elements -/

/-- The product with 2, modulo `x^8 + x^4 + x^3 + x^2 + 1`. -/
def xtime (x : UInt8) : UInt8 :=
  (x <<< 1) ^^^ (x >>> 7) ^^^ ((x >>> 7) <<< 2) ^^^ ((x >>> 7) <<< 3) ^^^ ((x >>> 7) <<< 4)

/-- The product with 6. -/
def times6 (x : UInt8) : UInt8 :=
  xtime x ^^^ xtime (xtime x)

/-- The product with 8. -/
def times8 (x : UInt8) : UInt8 :=
  xtime (xtime (xtime x))

/-- The product with 15. -/
def times15 (x : UInt8) : UInt8 :=
  x ^^^ xtime x ^^^ xtime (xtime x) ^^^ xtime (xtime (xtime x))

/-- The first parity symbol. -/
def parity1 (a b c : UInt8) : UInt8 :=
  a ^^^ b ^^^ c

/-- The second parity symbol. -/
def parity2 (a b c : UInt8) : UInt8 :=
  times15 a ^^^ times8 b ^^^ times6 c

/-- The words of the code. -/
def byteCode : List UInt8 → Bool
  | [a, b, c, p, q] => p == parity1 a b c && q == parity2 a b c
  | _ => false

theorem byteCode_iff {w : List UInt8} :
    byteCode w = true ↔ ∃ a b c, w = [a, b, c, parity1 a b c, parity2 a b c] := by
  constructor
  · intro h
    match w, h with
    | [a, b, c, p, q], h =>
        simp only [byteCode, Bool.and_eq_true, beq_iff_eq] at h
        exact ⟨a, b, c, by rw [h.1, h.2]⟩
  · rintro ⟨a, b, c, rfl⟩
    simp [byteCode]

theorem xtime_xor (x y : UInt8) : xtime (x ^^^ y) = xtime x ^^^ xtime y := by
  simp only [xtime, UInt8.shiftLeft_xor, UInt8.shiftRight_xor]
  ac_rfl

/-- The parities of a difference are the differences of the parities. -/
theorem parity1_xor (a b c a' b' c' : UInt8) :
    parity1 (a ^^^ a') (b ^^^ b') (c ^^^ c') = parity1 a b c ^^^ parity1 a' b' c' := by
  simp only [parity1]
  ac_rfl

theorem parity2_xor (a b c a' b' c' : UInt8) :
    parity2 (a ^^^ a') (b ^^^ b') (c ^^^ c') = parity2 a b c ^^^ parity2 a' b' c' := by
  simp only [parity2, times15, times8, times6, xtime_xor]
  ac_rfl

/-- What holds of the 256 symbols holds of every symbol. -/
theorem forall_symbol {P : UInt8 → Prop} (h : ∀ i : Fin 256, P (UInt8.ofFin i)) (x : UInt8) :
    P x :=
  h x.toFin

/-- With two data symbols zero, the third is zero when the second parity is. -/
theorem parity2_single_eq_zero : ∀ x : UInt8, (parity2 x 0 0 = 0 ↔ x = 0) ∧
    (parity2 0 x 0 = 0 ↔ x = 0) ∧ (parity2 0 0 x = 0 ↔ x = 0) := by
  refine forall_symbol ?_
  decide +kernel

/-- With one data symbol zero and the other two equal, all are zero when the second parity
is. -/
theorem parity2_equal_eq_zero : ∀ x : UInt8, (parity2 x x 0 = 0 ↔ x = 0) ∧
    (parity2 x 0 x = 0 ↔ x = 0) ∧ (parity2 0 x x = 0 ↔ x = 0) := by
  refine forall_symbol ?_
  decide +kernel

/-- A word with three zeros is zero. -/
theorem eq_zero_of_zeros {a b c : UInt8}
    (h : 3 ≤ [a, b, c, parity1 a b c, parity2 a b c].countP (· == 0)) :
    a = 0 ∧ b = 0 ∧ c = 0 := by
  simp only [List.countP_cons, List.countP_nil, beq_iff_eq] at h
  by_cases ha : a = 0
  · by_cases hb : b = 0
    · by_cases hc : c = 0
      · exact ⟨ha, hb, hc⟩
      · simp [ha, hb, hc, parity1, (parity2_single_eq_zero c).2.2] at h
    · by_cases hc : c = 0
      · simp [ha, hb, hc, parity1, (parity2_single_eq_zero b).2.1] at h
      · -- both parities are zero, the first because the other two symbols are equal
        by_cases hbc : b = c
        · simp [ha, hb, ← hbc, parity1, (parity2_equal_eq_zero b).2.2] at h
        · simp only [ha, hb, hc, hbc, parity1, UInt8.zero_xor, UInt8.xor_eq_zero_iff] at h
          split at h <;> simp at h
  · by_cases hb : b = 0
    · by_cases hc : c = 0
      · simp [ha, hb, hc, parity1, (parity2_single_eq_zero a).1] at h
      · by_cases hac : a = c
        · simp [ha, hb, ← hac, parity1, (parity2_equal_eq_zero a).2.1] at h
        · simp only [ha, hb, hc, hac, parity1, UInt8.xor_zero, UInt8.xor_eq_zero_iff] at h
          split at h <;> simp at h
    · by_cases hc : c = 0
      · by_cases hab : a = b
        · simp [ha, hc, ← hab, parity1, (parity2_equal_eq_zero a).1] at h
        · simp only [ha, hb, hc, hab, parity1, UInt8.xor_zero, UInt8.xor_eq_zero_iff] at h
          split at h <;> simp at h
      · simp only [ha, hb, hc, if_false] at h
        split at h <;> split at h <;> simp at h

/-- Two words that fit a pattern differ by zero where the pattern is known. -/
theorem known_le_countP_xor {pattern : List (Option UInt8)} {w w' : List UInt8}
    (h : Fits pattern w) (h' : Fits pattern w') :
    known pattern ≤ (List.zipWith (· ^^^ ·) w w').countP (· == 0) := by
  induction h generalizing w' with
  | nil => simp
  | @cons o x pattern w hx hw ih =>
      cases h' with
      | @cons _ x' _ w' hx' hw' =>
          have hrest := ih hw'
          rw [List.zipWith_cons_cons, List.countP_cons, known_cons]
          cases o with
          | none =>
              simp only [Option.isSome_none, Bool.false_eq_true, if_false]
              omega
          | some y =>
              obtain rfl := hx y rfl
              obtain rfl := hx' y rfl
              simpa using hrest

/-- **The code**: any three symbols of a word determine it. -/
theorem byteCode_determinedBy : DeterminedBy rsDataShards byteCode := by
  intro pattern w w' hknown hfits hfits' hw hw'
  obtain ⟨a, b, c, rfl⟩ := byteCode_iff.mp hw
  obtain ⟨a', b', c', rfl⟩ := byteCode_iff.mp hw'
  have hzeros := hknown.trans (known_le_countP_xor hfits hfits')
  simp only [List.zipWith_cons_cons, List.zipWith_nil_left, ← parity1_xor, ← parity2_xor]
    at hzeros
  obtain ⟨ha, hb, hc⟩ := eq_zero_of_zeros hzeros
  rw [UInt8.xor_eq_zero_iff] at ha hb hc
  rw [ha, hb, hc]

/-! ### The coder -/

/-- The 256 symbols. -/
def symbols : List UInt8 :=
  (List.range 256).map UInt8.ofNat

theorem mem_symbols (x : UInt8) : x ∈ symbols :=
  List.mem_map.mpr ⟨x.toNat, List.mem_range.mpr x.toNat_lt, UInt8.ofNat_toNat⟩

/-- Data shards with their parity shards. -/
def withParity (x y z : Bytes) : List Bytes :=
  [x, y, z, List.zipWith3 parity1 x y z, List.zipWith3 parity2 x y z]

/-- The coder of three data shards and two parity shards. Present shards that belong to no
codeword are refused here; they come from no encoder. -/
def ReedSolomon.galois8 : ReedSolomon where
  encode
    | [x, y, z, p, q] =>
        if x = [] then .error .emptyShard
        else if ∀ s ∈ [y, z, p, q], s.length = x.length then .ok (withParity x y z)
        else .error .incorrectShardSize
    | shards => .error (if shards.length < rsTotalShards then .tooFewShards else .tooManyShards)
  reconstruct shards :=
    if shards.length < rsTotalShards then .error .tooFewShards
    else if rsTotalShards < shards.length then .error .tooManyShards
    else if some [] ∈ shards then .error .emptyShard
    else
      match shards.reduceOption with
      | [] => .error .tooFewShardsPresent
      | s :: rest =>
          if ∃ t ∈ rest, t.length ≠ s.length then .error .incorrectShardSize
          else if known shards < rsDataShards then .error .tooFewShardsPresent
          else
            match completeColumns symbols byteCode s.length shards with
            | some c => .ok (c.map some)
            | none => .error .tooFewShardsPresent

theorem length_zipWith3 {f : UInt8 → UInt8 → UInt8 → UInt8} {n : ℕ} {x y z : Bytes}
    (hx : x.length = n) (hy : y.length = n) (hz : z.length = n) :
    (List.zipWith3 f x y z).length = n := by
  induction n generalizing x y z with
  | zero =>
      obtain rfl := List.length_eq_zero_iff.mp hx
      rfl
  | succ n ih =>
      obtain ⟨a, x, rfl⟩ := List.exists_cons_of_length_eq_add_one hx
      obtain ⟨b, y, rfl⟩ := List.exists_cons_of_length_eq_add_one hy
      obtain ⟨c, z, rfl⟩ := List.exists_cons_of_length_eq_add_one hz
      simp only [List.length_cons, Nat.add_right_cancel_iff] at hx hy hz
      simp [List.zipWith3, ih hx hy hz]

/-- The columns of shards with their parity are words of the code. -/
theorem interleaved_withParity {n : ℕ} {x y z : Bytes} (hx : x.length = n) (hy : y.length = n)
    (hz : z.length = n) : Interleaved byteCode n (withParity x y z) := by
  induction n generalizing x y z with
  | zero =>
      obtain rfl := List.length_eq_zero_iff.mp hx
      obtain rfl := List.length_eq_zero_iff.mp hy
      obtain rfl := List.length_eq_zero_iff.mp hz
      simp [Interleaved, withParity, List.zipWith3]
  | succ n ih =>
      obtain ⟨a, x, rfl⟩ := List.exists_cons_of_length_eq_add_one hx
      obtain ⟨b, y, rfl⟩ := List.exists_cons_of_length_eq_add_one hy
      obtain ⟨c, z, rfl⟩ := List.exists_cons_of_length_eq_add_one hz
      simp only [List.length_cons, Nat.add_right_cancel_iff] at hx hy hz
      exact ⟨[a, b, c, parity1 a b c, parity2 a b c], withParity x y z, rfl, rfl,
        byteCode_iff.mpr ⟨a, b, c, rfl⟩, ih hx hy hz⟩

namespace ReedSolomon

theorem encode_galois8 {n : ℕ} {x y z p q : Bytes} (hn : 0 < n)
    (h : ∀ s ∈ [x, y, z, p, q], s.length = n) :
    galois8.encode [x, y, z, p, q] = .ok (withParity x y z) := by
  have hx : x.length = n := h x (by simp)
  have hne : x ≠ [] := List.ne_nil_of_length_pos (hx ▸ hn)
  have hsame : ∀ s ∈ [y, z, p, q], s.length = x.length := by
    intro s hs
    rw [hx]
    exact h s (List.mem_cons_of_mem _ hs)
  simp only [galois8]
  rw [if_neg hne, if_pos hsame]

/-- A codeword is data shards with their parity. -/
theorem IsCodeword.eq_withParity {n : ℕ} (hn : 0 < n) {c : List Bytes}
    (h : galois8.IsCodeword n c) :
    ∃ x y z, c = withParity x y z ∧ x.length = n ∧ y.length = n ∧ z.length = n := by
  match c, h with
  | [x, y, z, p, q], h =>
      have hencode := encode_galois8 hn h.size
      exact ⟨x, y, z, Except.ok.inj (h.parity.symm.trans hencode), h.size x (by simp),
        h.size y (by simp), h.size z (by simp)⟩

theorem isCodeword_withParity {n : ℕ} (hn : 0 < n) {x y z : Bytes} (hx : x.length = n)
    (hy : y.length = n) (hz : z.length = n) : galois8.IsCodeword n (withParity x y z) := by
  have hsize : ∀ s ∈ withParity x y z, s.length = n := by
    simp [withParity, hx, hy, hz, length_zipWith3 hx hy hz]
  exact ⟨rfl, hsize, encode_galois8 hn hsize⟩

/-- The known shards of a pattern are shards of every word that fits it. -/
theorem mem_of_fits {shards : List (Option Bytes)} {c : List Bytes} (h : Fits shards c)
    {s : Bytes} (hs : some s ∈ shards) : s ∈ c := by
  induction h with
  | nil => simp at hs
  | cons hox _ ih =>
      rcases List.mem_cons.mp hs with rfl | hs
      · exact (hox s rfl) ▸ List.mem_cons_self ..
      · exact List.mem_cons_of_mem _ (ih hs)

/-- **The coder does what its documentation says.** -/
theorem galois8_documented : galois8.Documented where
  encode_ok n shards hn hcount hsize := by
    match shards, hcount with
    | [x, y, z, p, q], _ =>
        exact ⟨_, encode_galois8 hn hsize, isCodeword_withParity hn (hsize x (by simp))
          (hsize y (by simp)) (hsize z (by simp)), rfl⟩
  reconstruct_ok n c shards hn hc hfits hknown := by
    have hcount : shards.length = rsTotalShards := hfits.length_eq.trans hc.count
    have hempty : some [] ∉ shards := by
      intro hmem
      have hzero := hc.size [] (mem_of_fits hfits hmem)
      rw [List.length_nil] at hzero
      omega
    obtain ⟨x, y, z, rfl, hx, hy, hz⟩ := hc.eq_withParity hn
    simp only [galois8, hcount, lt_irrefl, if_false, hempty]
    cases hpresent : shards.reduceOption with
    | nil =>
        have hzero : known shards = 0 := by
          rw [known, List.countP_eq_zero]
          intro o ho
          cases o with
          | none => simp
          | some s =>
              have := List.reduceOption_mem_iff.mpr ho
              simp [hpresent] at this
        rw [hzero, rsDataShards] at hknown
        omega
    | cons s rest =>
        have hall : ∀ t ∈ s :: rest, t.length = n := by
          intro t ht
          rw [← hpresent, List.reduceOption_mem_iff] at ht
          exact hc.size t (mem_of_fits hfits ht)
        have hs := hall s (List.mem_cons_self ..)
        have hsame : ¬ ∃ t ∈ rest, t.length ≠ n := by
          rintro ⟨t, ht, hne⟩
          exact hne (hall t (List.mem_cons_of_mem _ ht))
        simp only [hs, hsame, if_false, not_lt.mpr hknown,
          completeColumns_eq byteCode_determinedBy mem_symbols hknown hfits
            (interleaved_withParity hx hy hz)]
  reconstruct_emptyShard shards hmem := by
    simp only [galois8, hmem, if_true]
    split
    · exact ⟨_, rfl⟩
    · split
      · exact ⟨_, rfl⟩
      · exact ⟨_, rfl⟩

end ReedSolomon

end VaultKeeper
