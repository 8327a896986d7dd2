import Mathlib.Data.Finset.Lattice.Lemmas
import Mathlib.Order.Defs.LinearOrder

/-!
# Latest Value Wins

Several writers write one value each, and copies of the values are passed on. Where a copy
is held, an arriving one replaces it when its key is greater. `IsLatest` says of a held copy
what it has been compared with: the values of the writers that were heard of. It is kept
whatever copies arrive, in whatever order and however often.

## Main results

* `IsLatest.merge`: a merged copy is the latest of what both copies have heard of.
* `IsLatest.eq_of_heard_eq`: copies that have heard of the same writers are the same, when
  no two of these writers wrote different values with one key.
-/

namespace LatestWins

variable {ι ν κ : Type*} [LinearOrder κ] (key : ν → κ)

/-- The arriving value when its key is greater, and the held one otherwise. -/
def merge (held arriving : ν) : ν :=
  if key held < key arriving then arriving else held

/-- No value that a writer in `heard` wrote has a greater key than `v`, which is one of
them. -/
structure IsLatest (wrote : ι → Option ν) (heard : Finset ι) (v : ν) : Prop where
  written : ∃ i ∈ heard, wrote i = some v
  le : ∀ i ∈ heard, ∃ u, wrote i = some u ∧ key u ≤ key v

/-- The writers in `heard` wrote no two values with one key. -/
def NoTies (wrote : ι → Option ν) (heard : Finset ι) : Prop :=
  ∀ i ∈ heard, ∀ j ∈ heard, ∀ u v, wrote i = some u → wrote j = some v → key u = key v → u = v

variable {key} {wrote wrote' : ι → Option ν} {heard heard' : Finset ι} {u v : ν}

theorem le_key_merge_left (u v : ν) : key u ≤ key (merge key u v) := by
  rw [merge]
  split
  · next h => exact h.le
  · exact le_rfl

theorem le_key_merge_right (u v : ν) : key v ≤ key (merge key u v) := by
  rw [merge]
  split
  · exact le_rfl
  · next h => exact not_lt.mp h

/-- A value that is not later than the held one changes nothing. -/
theorem merge_of_le (h : key v ≤ key u) : merge key u v = u :=
  if_neg (not_lt.mpr h)

/-- A held value is kept, or replaced by a later one. -/
theorem merge_eq_or_lt (u v : ν) : merge key u v = u ∨ key u < key (merge key u v) := by
  by_cases h : key u < key v
  · rw [merge, if_pos h]
    exact Or.inr h
  · exact Or.inl (if_neg h)

/-- A writer has heard of itself. -/
theorem IsLatest.singleton {i : ι} (h : wrote i = some v) : IsLatest key wrote {i} v where
  written := ⟨i, Finset.mem_singleton_self i, h⟩
  le _ hj := ⟨v, Finset.mem_singleton.mp hj ▸ h, le_rfl⟩

/-- A held copy stays the latest as others write. -/
theorem IsLatest.mono (h : IsLatest key wrote heard v)
    (hmono : ∀ i ∈ heard, ∀ u, wrote i = some u → wrote' i = some u) :
    IsLatest key wrote' heard v where
  written := by
    obtain ⟨i, hi, hv⟩ := h.written
    exact ⟨i, hi, hmono i hi v hv⟩
  le i hi := by
    obtain ⟨u, hu, hle⟩ := h.le i hi
    exact ⟨u, hmono i hi u hu, hle⟩

/-- **Merging**: the merged copy is the latest of what both copies have heard of. -/
theorem IsLatest.merge [DecidableEq ι] (hu : IsLatest key wrote heard u)
    (hv : IsLatest key wrote heard' v) :
    IsLatest key wrote (heard ∪ heard') (merge key u v) where
  written := by
    rw [LatestWins.merge]
    split
    · obtain ⟨i, hi, hwrote⟩ := hv.written
      exact ⟨i, Finset.mem_union_right _ hi, hwrote⟩
    · obtain ⟨i, hi, hwrote⟩ := hu.written
      exact ⟨i, Finset.mem_union_left _ hi, hwrote⟩
  le i hi := by
    rcases Finset.mem_union.mp hi with hi | hi
    · obtain ⟨w, hw, hle⟩ := hu.le i hi
      exact ⟨w, hw, hle.trans (le_key_merge_left u v)⟩
    · obtain ⟨w, hw, hle⟩ := hv.le i hi
      exact ⟨w, hw, hle.trans (le_key_merge_right u v)⟩

/-- A copy that has heard of more writers has no smaller key. -/
theorem IsLatest.key_le (hu : IsLatest key wrote heard u) (hv : IsLatest key wrote heard' v)
    (hsub : heard ⊆ heard') : key u ≤ key v := by
  obtain ⟨i, hi, hwrote⟩ := hu.written
  obtain ⟨w, hw, hle⟩ := hv.le i (hsub hi)
  obtain rfl := Option.some.inj (hwrote.symm.trans hw)
  exact hle

/-- **Agreement**: copies that have heard of the same writers are the same, unless two of
the writers are tied. -/
theorem IsLatest.eq_of_heard_eq (hties : NoTies key wrote heard)
    (hu : IsLatest key wrote heard u) (hv : IsLatest key wrote heard v) : u = v := by
  obtain ⟨i, hi, hiu⟩ := hu.written
  obtain ⟨j, hj, hjv⟩ := hv.written
  have hle := hu.key_le hv subset_rfl
  have hge := hv.key_le hu subset_rfl
  exact hties i hi j hj u v hiu hjv (le_antisymm hle hge)

end LatestWins
