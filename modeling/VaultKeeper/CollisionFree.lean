import Mathlib.Data.List.Perm.Subperm
import VaultKeeper.PairTree

/-!
# Collision-Free Functions

A function that has a value to spare for each input can be changed into one that tells
the inputs apart, one input at a time, without touching those it tells apart already. The
inputs may be found while the function is built, as they are in a hash tree, where the
digests of one round are the inputs of the next.

## Main results

* `exists_injOn_append`: a function that is injective on some inputs agrees on them with
  one that is injective on any further inputs as well.
* `exists_injOn_joined`: further inputs may be all the pairs joined in a tree that is built
  with the new function itself.
-/

namespace CollisionFree

variable {α β : Type*} {pool : List β}

/-- A list of distinct values that is longer than another has a value the other lacks. -/
theorem exists_fresh {used : List β} (hpool : pool.Nodup) (h : used.length < pool.length) :
    ∃ v ∈ pool, v ∉ used := by
  by_contra hnone
  have hsub : pool ⊆ used := by
    intro v hv
    by_contra hfresh
    exact hnone ⟨v, hv, hfresh⟩
  have hle := (List.subperm_of_subset hpool hsub).length_le
  omega

/-- One more input is told apart by a value that no other has. -/
theorem injOn_update [DecidableEq α] {f : α → β} {S : List α} {a : α} {v : β} (ha : a ∉ S)
    (hv : v ∉ S.map f) (hinj : Set.InjOn f {x | x ∈ S}) :
    Set.InjOn (Function.update f a v) {x | x ∈ a :: S} := by
  have hsame : ∀ x ∈ S, Function.update f a v x = f x := by
    intro x hx
    have hne : x ≠ a := ne_of_mem_of_not_mem hx ha
    exact Function.update_of_ne hne v f
  have hother : ∀ x ∈ S, f x ≠ v := fun x hx hxv => hv (hxv ▸ List.mem_map_of_mem hx)
  intro x hx y hy hxy
  rcases List.mem_cons.mp hx with rfl | hxS
  · rcases List.mem_cons.mp hy with rfl | hyS
    · rfl
    · rw [Function.update_self, hsame y hyS] at hxy
      exact absurd hxy.symm (hother y hyS)
  · rcases List.mem_cons.mp hy with rfl | hyS
    · rw [Function.update_self, hsame x hxS] at hxy
      exact absurd hxy (hother x hxS)
    · rw [hsame x hxS, hsame y hyS] at hxy
      exact hinj hxS hyS hxy

/-- **Further inputs**: a function that is injective on a list of inputs agrees on it with
one that is injective on a longer list, while there are as many values as inputs. -/
theorem exists_injOn_append {f : α → β} {S : List α} (L : List α) (hpool : pool.Nodup)
    (hlen : S.length + L.length ≤ pool.length) (hinj : Set.InjOn f {x | x ∈ S}) :
    ∃ g : α → β, (∀ x ∈ S, g x = f x) ∧ Set.InjOn g {x | x ∈ S ++ L} := by
  classical
  induction L generalizing f S with
  | nil => exact ⟨f, fun _ _ => rfl, by simpa using hinj⟩
  | cons a L ih =>
      rw [List.length_cons] at hlen
      by_cases ha : a ∈ S
      · obtain ⟨g, hg, hginj⟩ := ih (by omega) hinj
        refine ⟨g, hg, hginj.mono fun x hx => ?_⟩
        rcases List.mem_append.mp hx with hx | hx
        · exact List.mem_append_left _ hx
        · rcases List.mem_cons.mp hx with rfl | hx
          · exact List.mem_append_left _ ha
          · exact List.mem_append_right _ hx
      · have hspare : (S.map f).length < pool.length := by
          rw [List.length_map]
          omega
        obtain ⟨v, -, hv⟩ := exists_fresh hpool hspare
        obtain ⟨g, hg, hginj⟩ := ih (S := a :: S) (by rw [List.length_cons]; omega)
          (injOn_update ha hv hinj)
        refine ⟨g, fun x hx => ?_, hginj.mono fun x hx => List.perm_middle.mem_iff.mp hx⟩
        have hne : x ≠ a := ne_of_mem_of_not_mem hx ha
        rw [hg x (List.mem_cons_of_mem _ hx), Function.update_of_ne hne]

/-- **The inputs of a tree**: a function that is injective on a list of inputs agrees on it
with one that is injective as well on every pair joined when it builds a tree over a list of
values. Induction on the rounds: a round is extended before its values are joined. -/
theorem exists_injOn_joined (enc : β × β → α) {f : α → β} {S : List α} {l : List β}
    (hpool : pool.Nodup) (hlen : S.length + 2 * l.length ≤ pool.length)
    (hinj : Set.InjOn f {x | x ∈ S}) :
    ∃ g : α → β, (∀ x ∈ S, g x = f x) ∧
      Set.InjOn g {x | x ∈ S ++ (PairTree.joined (fun u v => g (enc (u, v))) l).map enc} := by
  induction hn : l.length using Nat.strong_induction_on generalizing f S l with
  | _ n ih =>
      by_cases hl : l.length ≤ 1
      · exact ⟨f, fun _ _ => rfl, by simpa [PairTree.joined_of_le_one _ hl] using hinj⟩
      · have hlong : 1 < l.length := by omega
        have hpairs : ((PairTree.pairs l).map enc).length = (l.length + 1) / 2 := by
          rw [List.length_map, PairTree.length_pairs]
        obtain ⟨f', hf', hinj'⟩ := exists_injOn_append ((PairTree.pairs l).map enc) hpool
          (by omega) hinj
        have hlt := PairTree.length_pairUp_lt (fun u v => f' (enc (u, v))) hlong
        obtain ⟨g, hg, hginj⟩ := ih _ (hn ▸ hlt) (f := f')
          (by rw [List.length_append, PairTree.length_pairUp]; omega) hinj' rfl
        have hround : PairTree.pairUp (fun u v => g (enc (u, v))) l =
            PairTree.pairUp (fun u v => f' (enc (u, v))) l :=
          List.map_congr_left fun p hp =>
            hg _ (List.mem_append_right _ (List.mem_map_of_mem hp))
        refine ⟨g, fun x hx => ?_, ?_⟩
        · rw [hg x (List.mem_append_left _ hx), hf' x hx]
        · rw [PairTree.joined_of_one_lt _ hlong, hround, List.map_append, ← List.append_assoc]
          exact hginj

end CollisionFree
