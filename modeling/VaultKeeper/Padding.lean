import Mathlib.Data.Vector.Basic
import VaultKeeper.Types

/-!
# Fixed-Block Padding

`core/src/padding.rs`: `pad_chunk` puts the random filler **after** the data,
`pad_with_length_header` overwrites the first four bytes of the block with the length,
and `unpad_with_length_header` reads the data back from the **end** of the block. The
random generator is a parameter: `fill n` is what it writes into a buffer of `n` bytes.

## Main results

* `padWithLengthHeader_eq`: what the encoder makes of data that fits.
* `unpadWithLengthHeader_pad`: what the decoder reads from it.
* `roundTrips_iff`: the data comes back exactly when it leaves room for the header and
  is a suffix of itself followed by the filler; only the empty string comes back from
  every filler.
-/

namespace VaultKeeper

theorem chunkSize_eq : chunkSize = 4194304 := rfl

/-- `u32::to_be_bytes`. -/
def toBeBytes (n : ℕ) : Bytes :=
  [UInt8.ofNat (n / 2 ^ 24), UInt8.ofNat (n / 2 ^ 16), UInt8.ofNat (n / 2 ^ 8), UInt8.ofNat n]

/-- `u32::from_be_bytes`. -/
def fromBeBytes (b₀ b₁ b₂ b₃ : UInt8) : ℕ :=
  ((b₀.toNat * 256 + b₁.toNat) * 256 + b₂.toNat) * 256 + b₃.toNat

/-- Pad data to `chunkSize` bytes with what the generator fills in. `none` is the failed
assertion on data that does not fit. -/
def padChunk (fill : (n : ℕ) → List.Vector UInt8 n) (data : Bytes) : Option Bytes :=
  if data.length ≤ chunkSize then
    if data.length < chunkSize then
      some (data ++ (fill (chunkSize - data.length)).toList)
    else some data
  else none

/-- Pad data and write its length, as a `u32`, over the first four bytes. -/
def padWithLengthHeader (fill : (n : ℕ) → List.Vector UInt8 n) (data : Bytes) :
    Option Bytes := do
  let originalLen := data.length % 2 ^ 32
  let padded ← padChunk fill data
  pure (toBeBytes originalLen ++ padded.drop 4)

/-- Read the length from the first four bytes and the data from the end of the block. -/
def unpadWithLengthHeader (padded : Bytes) : Option Bytes :=
  match padded with
  | b₀ :: b₁ :: b₂ :: b₃ :: _ =>
      let originalLen := fromBeBytes b₀ b₁ b₂ b₃
      if padded.length - 4 < originalLen then none
      else some (padded.drop (padded.length - originalLen))
  | _ => none

/-- The data goes through the padding and back, in a block of exactly `chunkSize`. -/
def RoundTrips (fill : (n : ℕ) → List.Vector UInt8 n) (data : Bytes) : Prop :=
  ∃ padded, padWithLengthHeader fill data = some padded ∧ padded.length = chunkSize ∧
    unpadWithLengthHeader padded = some data

/-! ### Encoder and decoder -/

@[simp] theorem length_toBeBytes (n : ℕ) : (toBeBytes n).length = 4 := rfl

theorem fromBeBytes_toBeBytes {n : ℕ} (h : n < 2 ^ 32) :
    fromBeBytes (UInt8.ofNat (n / 2 ^ 24)) (UInt8.ofNat (n / 2 ^ 16))
      (UInt8.ofNat (n / 2 ^ 8)) (UInt8.ofNat n) = n := by
  simp only [fromBeBytes, UInt8.toNat_ofNat']
  omega

theorem toBeBytes_inj {n m : ℕ} (hn : n < 2 ^ 32) (hm : m < 2 ^ 32)
    (h : toBeBytes n = toBeBytes m) : n = m := by
  simp only [toBeBytes, List.cons.injEq] at h
  obtain ⟨h₀, h₁, h₂, h₃, -⟩ := h
  rw [← fromBeBytes_toBeBytes hn, ← fromBeBytes_toBeBytes hm, h₀, h₁, h₂, h₃]

variable (fill : (n : ℕ) → List.Vector UInt8 n) {data : Bytes}

/-- The block of data that fits: the data, then the filler. -/
theorem padChunk_eq (h : data.length ≤ chunkSize) :
    padChunk fill data = some (data ++ (fill (chunkSize - data.length)).toList) := by
  rw [padChunk, if_pos h]
  by_cases hlt : data.length < chunkSize
  · rw [if_pos hlt]
  · have hnil : (fill (chunkSize - data.length)).toList = [] := by
      rw [← List.length_eq_zero_iff, List.Vector.toList_length]
      omega
    rw [if_neg hlt, hnil, List.append_nil]

/-- The padded block of data that fits: the header over the first four bytes. -/
theorem padWithLengthHeader_eq (h : data.length ≤ chunkSize) :
    padWithLengthHeader fill data = some
      (toBeBytes data.length ++ (data ++ (fill (chunkSize - data.length)).toList).drop 4) := by
  have hmod : data.length % 2 ^ 32 = data.length := by
    rw [chunkSize_eq] at h
    omega
  rw [padWithLengthHeader, padChunk_eq fill h, hmod]
  rfl

theorem length_padded (h : data.length ≤ chunkSize) :
    (toBeBytes data.length ++
      (data ++ (fill (chunkSize - data.length)).toList).drop 4).length = chunkSize := by
  simp only [List.length_append, length_toBeBytes, List.length_drop,
    List.Vector.toList_length]
  rw [chunkSize_eq] at *
  omega

/-- The decoder on a padded block: nothing when the header leaves no room for the data,
otherwise as many bytes from the end of the data and the filler as the data has. -/
theorem unpadWithLengthHeader_pad (h : data.length ≤ chunkSize) :
    unpadWithLengthHeader
        (toBeBytes data.length ++ (data ++ (fill (chunkSize - data.length)).toList).drop 4) =
      if data.length ≤ chunkSize - 4 then
        some ((data ++ (fill (chunkSize - data.length)).toList).drop
          (chunkSize - data.length))
      else none := by
  have hlen := length_padded fill h
  have hhdr : fromBeBytes (UInt8.ofNat (data.length / 2 ^ 24))
      (UInt8.ofNat (data.length / 2 ^ 16)) (UInt8.ofNat (data.length / 2 ^ 8))
      (UInt8.ofNat data.length) = data.length := by
    refine fromBeBytes_toBeBytes ?_
    rw [chunkSize_eq] at h
    omega
  simp only [toBeBytes, List.cons_append, List.nil_append] at hlen ⊢
  simp only [unpadWithLengthHeader, hlen, hhdr]
  by_cases hfit : data.length ≤ chunkSize - 4
  · -- the window read back starts behind the header
    have hstart : chunkSize - data.length = (chunkSize - data.length - 4) + 4 := by
      rw [chunkSize_eq] at *
      omega
    rw [if_neg (by omega), if_pos hfit, hstart]
    simp only [List.drop_succ_cons, List.drop_drop, Option.some.injEq]
    congr 1
    omega
  · rw [if_pos (by omega), if_neg hfit]

/-- With a given filler, the data comes back exactly when it leaves room for the header
and is a suffix of itself followed by the filler. -/
theorem roundTrips_fill_iff (h : data.length ≤ chunkSize) :
    RoundTrips fill data ↔
      data.length ≤ chunkSize - 4 ∧
        data <:+ data ++ (fill (chunkSize - data.length)).toList := by
  have hsuffix : data <:+ data ++ (fill (chunkSize - data.length)).toList ↔
      data = (data ++ (fill (chunkSize - data.length)).toList).drop
        (chunkSize - data.length) := by
    rw [List.suffix_iff_eq_drop, List.length_append, List.Vector.toList_length]
    rw [show data.length + (chunkSize - data.length) - data.length =
      chunkSize - data.length by omega]
  simp only [RoundTrips, padWithLengthHeader_eq fill h, Option.some.injEq,
    exists_eq_left', length_padded fill h, true_and, unpadWithLengthHeader_pad fill h, hsuffix]
  by_cases hfit : data.length ≤ chunkSize - 4
  · simp only [hfit, if_true, Option.some.injEq, true_and]
    exact eq_comm
  · simp [hfit]

/-- Data that is not empty is no suffix of itself followed by copies of a byte other
than its last. -/
theorem not_suffix_replicate {x y : UInt8} {m : ℕ} (hxy : x ≠ y) (hm : 0 < m)
    (hlast : data.getLast? = some x) : ¬ data <:+ data ++ List.replicate m y := by
  intro hsuffix
  have hne : data ≠ [] := by
    rintro rfl
    cases hlast
  have hrep : List.replicate m y ≠ [] := by
    simp only [ne_eq, List.replicate_eq_nil_iff]
    omega
  obtain ⟨front, hfront⟩ := hsuffix
  have heq := congrArg List.getLast? hfront
  rw [List.getLast?_append_of_ne_nil _ hne, List.getLast?_append_of_ne_nil _ hrep, hlast,
    List.getLast?_replicate, if_neg (by omega)] at heq
  exact hxy (Option.some.inj heq)

/-- **When padding is undone.** With a given filler, data that fits comes back exactly
when it leaves room for the header and is a suffix of itself followed by the filler; it
comes back from every filler exactly when it is empty. -/
theorem roundTrips_iff (data : Bytes) (h : data.length ≤ chunkSize) :
    (∀ fill, RoundTrips fill data ↔
      data.length ≤ chunkSize - 4 ∧
        data <:+ data ++ (fill (chunkSize - data.length)).toList) ∧
    ((∀ fill, RoundTrips fill data) ↔ data = []) := by
  refine ⟨fun fill => roundTrips_fill_iff fill h, ?_, ?_⟩
  · intro hall
    by_contra hne
    -- a filler of one byte that is not the last byte of the data
    have hlast := List.getLast?_eq_some_getLast hne
    obtain ⟨hfit, hsuffix⟩ := (roundTrips_fill_iff
      (fun n => List.Vector.replicate n (data.getLast hne + 1)) h).mp (hall _)
    refine not_suffix_replicate (by simp) ?_ hlast hsuffix
    rw [chunkSize_eq] at *
    omega
  · rintro rfl fill
    exact (roundTrips_fill_iff fill h).mpr ⟨by simp, List.nil_suffix⟩

theorem roundTrips_iff_nil :
    (∀ fill, RoundTrips fill [] ↔
      ([] : Bytes).length ≤ chunkSize - 4 ∧
        ([] : Bytes) <:+ [] ++ (fill (chunkSize - ([] : Bytes).length)).toList) ∧
    ((∀ fill, RoundTrips fill []) ↔ ([] : Bytes) = []) :=
  roundTrips_iff [] (Nat.zero_le _)

/-- One byte `A` padded with zero bytes is read back as a zero byte. -/
theorem not_roundTrips_byte : ¬ RoundTrips (fun n => List.Vector.replicate n 0) [65] := by
  have hlen : ([65] : Bytes).length ≤ chunkSize := by
    rw [chunkSize_eq]
    decide
  rw [roundTrips_fill_iff _ hlen]
  rintro ⟨-, hsuffix⟩
  exact not_suffix_replicate (x := 65) (by decide) (by decide) rfl hsuffix

end VaultKeeper
