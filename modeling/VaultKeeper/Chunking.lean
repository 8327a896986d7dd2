import VaultKeeper.Chunks
import VaultKeeper.Types

/-!
# Chunking

`core/src/chunking.rs`: data is cut into 4 MiB chunks for storage, and the chunks are
appended to each other to give it back. The number of chunks is computed a second time,
from the length of the data alone. Lengths are natural numbers here: no slice is longer
than `isize::MAX` bytes, so the sums of `chunk_data` and of a length in `chunk_count` stay
in a `usize`.

## Main results

* `chunkData_eq`, `assembleChunks_eq`: the loops are the two directions of `chunking`.
* `chunkData_slices`: no slice it takes is out of bounds.
* `chunkData_bijective`: data and canonical lists of chunks correspond to each other, and
  the count agrees.
-/

namespace VaultKeeper

/-- Split data into fixed-size chunks. -/
def chunkData (data : Bytes) : List Bytes :=
  if data = [] then []
  else
    (Chunks.stepBy chunkSize data.length 0).map fun i =>
      let stop := min (i + chunkSize) data.length
      data.extract i stop

/-- Reassemble chunks back into the original data. -/
def assembleChunks (chunks : List Bytes) : Bytes :=
  chunks.foldl (fun data chunk => data ++ chunk) []

/-- The number of chunks needed for a given data size. -/
def chunkCount (dataLen : ℕ) : ℕ :=
  if dataLen = 0 then 0 else (dataLen + chunkSize - 1) / chunkSize

theorem chunkSize_pos : 0 < chunkSize := by
  rw [chunkSize]
  omega

/-- Cutting byte strings into chunks and joining them. -/
def chunking : Bytes ≃ {chunks : List Bytes // Chunks.Canonical chunkSize chunks} :=
  Chunks.equiv chunkSize chunkSize_pos

/-- The early return for empty data gives what the loop would. -/
theorem chunkData_eq (data : Bytes) : chunkData data = (chunking data).val := by
  have hcut : (chunking data).val = Chunks.cut chunkSize data := rfl
  rw [chunkData, hcut]
  by_cases h : data = []
  · rw [if_pos h, h, Chunks.cut_nil]
  · rw [if_neg h, Chunks.cut]

theorem assembleChunks_eq (chunks : {chunks : List Bytes // Chunks.Canonical chunkSize chunks}) :
    assembleChunks chunks.val = chunking.symm chunks := by
  have hflatten : chunking.symm chunks = chunks.val.flatten := rfl
  rw [assembleChunks, List.foldl_append_eq_append, hflatten]
  simp

/-- The bounds of a slice are in order and inside the data. -/
theorem chunkData_slices {data : Bytes} {i : ℕ}
    (h : i ∈ Chunks.stepBy chunkSize data.length 0) :
    i ≤ min (i + chunkSize) data.length ∧ min (i + chunkSize) data.length ≤ data.length := by
  have hlt := Chunks.lt_of_mem_stepBy h
  omega

theorem chunkCount_eq (dataLen : ℕ) :
    chunkCount dataLen = (dataLen + chunkSize - 1) / chunkSize := by
  rw [chunkCount]
  by_cases h : dataLen = 0
  · rw [if_pos h, h, Nat.zero_add, Nat.div_eq_of_lt (Nat.sub_lt chunkSize_pos Nat.one_pos)]
  · rw [if_neg h]

/-- **Chunking is a bijection** onto the lists of full chunks with a last one that is full or
shorter but not empty: there are as many chunks as counted, and assembling undoes chunking
and chunking undoes assembling. -/
theorem chunkData_bijective :
    (∀ data, (chunkData data).length = chunkCount data.length ∧
      Chunks.Canonical chunkSize (chunkData data) ∧ assembleChunks (chunkData data) = data) ∧
    ∀ chunks, Chunks.Canonical chunkSize chunks → chunkData (assembleChunks chunks) = chunks := by
  refine ⟨fun data => ⟨?_, ?_, ?_⟩, fun chunks h => ?_⟩
  · rw [chunkData_eq, chunkCount_eq]
    exact Chunks.length_cut chunkSize_pos data
  · rw [chunkData_eq]
    exact (chunking data).property
  · rw [chunkData_eq, assembleChunks_eq, Equiv.symm_apply_apply]
  · rw [assembleChunks_eq ⟨chunks, h⟩, chunkData_eq, Equiv.apply_symm_apply]

end VaultKeeper
