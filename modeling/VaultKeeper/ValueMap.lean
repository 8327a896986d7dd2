import Mathlib.Data.List.AList

/-!
# Maps with a Change of All Values

Finite maps as association lists without repeated keys. `mapValues` changes every value
under its key, as a loop over the values of a map does, and `values` lists them.

## Main results

* `lookup_mapValues`: a value is changed where it stands.
* `mem_values_iff`: the values are those that some key has.
* `filter_filterMap_values`: what a loop over the values collects for one key.
-/

namespace ValueMap

variable {κ α β : Type*}

/-- Change the value of every key. -/
def mapValues (f : α → β) (m : AList fun _ : κ => α) : AList fun _ : κ => β where
  entries := m.entries.map fun e => ⟨e.1, f e.2⟩
  nodupKeys := by
    have hkeys : (m.entries.map fun e => (⟨e.1, f e.2⟩ : Sigma fun _ : κ => β)).keys =
        m.entries.keys := by
      rw [List.keys, List.map_map]
      rfl
    rw [List.NodupKeys, hkeys]
    exact m.keys_nodup

theorem mapValues_mapValues {γ : Type*} (g : β → γ) (f : α → β) (m : AList fun _ : κ => α) :
    mapValues g (mapValues f m) = mapValues (fun a => g (f a)) m :=
  AList.ext (List.map_map ..)

/-- The values, in the order of the list. -/
def values (m : AList fun _ : κ => α) : List α :=
  m.entries.map Sigma.snd

variable [DecidableEq κ]

theorem lookup_mapValues (f : α → β) (m : AList fun _ : κ => α) (k : κ) :
    (mapValues f m).lookup k = (m.lookup k).map f := by
  obtain ⟨entries, hnodup⟩ := m
  simp only [AList.lookup, mapValues]
  clear hnodup
  induction entries with
  | nil => rfl
  | cons e rest ih =>
      obtain ⟨k', a⟩ := e
      by_cases hk : k' = k
      · subst hk
        simp
      · rw [List.map_cons, List.dlookup_cons_ne _ _ (Ne.symm hk),
          List.dlookup_cons_ne _ _ (Ne.symm hk)]
        exact ih

theorem mem_values_iff {m : AList fun _ : κ => α} {a : α} :
    a ∈ values m ↔ ∃ k, m.lookup k = some a := by
  rw [values, List.mem_map]
  constructor
  · rintro ⟨⟨k, b⟩, hmem, rfl⟩
    exact ⟨k, AList.mem_lookup_iff.mpr hmem⟩
  · rintro ⟨k, hk⟩
    exact ⟨⟨k, a⟩, AList.mem_lookup_iff.mp hk, rfl⟩

/-- Values that name their key name all keys. -/
theorem map_values {m : AList fun _ : κ => α} {key : α → κ}
    (hkey : ∀ k a, m.lookup k = some a → key a = k) : (values m).map key = m.keys := by
  rw [values, List.map_map, AList.keys, List.keys]
  exact List.map_congr_left fun e he => hkey e.1 e.2 (AList.mem_lookup_iff.mpr he)

/-- **Collecting by key**: when what a loop over the values collects names the key it comes
from, what it collects for one key comes from the value of this key. -/
theorem filter_filterMap_values {γ : Type*} (m : AList fun _ : κ => α) (f : α → Option γ)
    (key : γ → κ) (hkey : ∀ k a c, m.lookup k = some a → f a = some c → key c = k) (k : κ) :
    ((values m).filterMap f).filter (key · = k) = ((m.lookup k).bind f).toList := by
  obtain ⟨entries, hnodup⟩ := m
  have hentry : ∀ e ∈ entries, ∀ c, f e.2 = some c → key c = e.1 := fun e he c hc =>
    hkey e.1 e.2 c (AList.mem_lookup_iff.mpr he) hc
  simp only [AList.lookup, values]
  clear hkey
  induction entries with
  | nil => rfl
  | cons e rest ih =>
      obtain ⟨k', a⟩ := e
      have hrest := ih (List.nodupKeys_cons.mp hnodup).2 fun e he => hentry e (by simp [he])
      have hhead : ∀ c, f a = some c → key c = k' := hentry ⟨k', a⟩ (by simp)
      rw [List.map_cons]
      by_cases hk : k' = k
      · subst hk
        have habsent : List.dlookup k' rest = none :=
          List.dlookup_eq_none.mpr (List.nodupKeys_cons.mp hnodup).1
        rw [habsent] at hrest
        cases hf : f a with
        | none => simpa [hf] using hrest
        | some c => simpa [hf, hhead c hf] using hrest
      · rw [List.dlookup_cons_ne _ _ (Ne.symm hk), ← hrest]
        cases hf : f a with
        | none => simp [hf]
        | some c => simp [hf, hhead c hf, hk]

end ValueMap
