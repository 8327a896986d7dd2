import Mathlib.Data.List.Nodup
import Mathlib.Data.Set.Function
import Mathlib.Tactic.Ring

/-!
# Pairing Trees

A binary hash tree over a list is built by rounds: neighbours are joined two by two, a
lone last element is joined with itself, and the rounds stop at a list of one element,
the top. This module develops that construction over an arbitrary type and an arbitrary
join `node`, together with the walk from an element to the top.

The rounds are structurally recursive on a fuel argument, and `layers`, `settle` and
`top` supply the length of the list, which is enough: `layers_of_one_lt` and
`top_pairUp` are the equations of the unbounded loop.

## Main results

* `pairing_induction`: the induction principle of the rounds.
* `sibling_spec`: joining an element with its sibling, on the side the parity of its
  index says, gives its parent in the next round.
* `getElem?_layers`, `length_iterate_pairUp`: layer `k` is what `k` rounds make of the list,
  of its length divided by `2 ^ k` and rounded up.
* `foldPath_path_layers`: the path through **all** layers, the top one included, folds
  to `node top top`, one round above the top.
* `top_injOn`: lists of one length with equal tops are equal, when `node` is injective
  on the pairs joined in the two constructions.
* `top_eq_induction`: what holds of lists with equal tops, when no element of one is a join of
  the other, is shown round by round.
* `top_injOn_of_nodup`: such lists are equal when their elements are distinct.
* `foldPath_eq_fixed`: a path that folds to a fixed point of `node` starts there.
* `foldPath_binding`: two walks with the same flags that end alike are the same, unless they
  join two different pairs alike.
-/

namespace PairTree

variable {α : Type*} (node : α → α → α)

/-- The pairs one round joins: neighbours two by two, a lone last element with itself. -/
def pairs : List α → List (α × α)
  | a :: b :: rest => (a, b) :: pairs rest
  | [a] => [(a, a)]
  | [] => []

/-- One round: the joins of the pairs. -/
def pairUp (l : List α) : List α :=
  (pairs l).map fun p => node p.1 p.2

/-- The layers of at most `n` rounds, the given list first. -/
def layersFuel : ℕ → List α → List (List α)
  | 0, l => [l]
  | n + 1, l => if l.length ≤ 1 then [l] else l :: layersFuel n (pairUp node l)

/-- All layers, from the given list to the top. -/
def layers (l : List α) : List (List α) :=
  layersFuel node l.length l

/-- The list after at most `n` rounds. -/
def settleFuel : ℕ → List α → List α
  | 0, l => l
  | n + 1, l => if l.length ≤ 1 then l else settleFuel n (pairUp node l)

/-- The list the rounds end with. -/
def settle (l : List α) : List α :=
  settleFuel node l.length l

/-- Every pair joined on the way to the top. -/
def joined (l : List α) : List (α × α) :=
  (layers node l).dropLast.flatMap pairs

/-- The sibling of index `i`: the neighbour of its pair, or the element itself when the
pair has only one member. -/
def sibling (l : List α) (i : ℕ) : Option α :=
  let s := if i % 2 = 0 then i + 1 else i - 1
  if s < l.length then l[s]? else l[i]?

/-- The siblings met from index `i` of the first layer upwards, each with the flag that
says it stands on the right. -/
def path : List (List α) → ℕ → Option (List (α × Bool))
  | [], _ => some []
  | layer :: rest, i => do
      let s ← sibling layer i
      let p ← path rest (i / 2)
      pure ((s, i % 2 == 0) :: p)

/-- One step of the walk: join with a sibling on the side its flag says. -/
def foldStep (x : α) (s : α × Bool) : α :=
  if s.2 then node x s.1 else node s.1 x

/-- The walk along a path. -/
def foldPath (x : α) : List (α × Bool) → α
  | [] => x
  | s :: rest => foldPath (foldStep node x s) rest

/-- The pair one step of the walk joins. -/
def stepPair (x : α) (s : α × Bool) : α × α :=
  if s.2 then (x, s.1) else (s.1, x)

/-- Every pair joined along the walk. -/
def foldPairs (x : α) : List (α × Bool) → List (α × α)
  | [] => []
  | s :: rest => stepPair x s :: foldPairs (foldStep node x s) rest

/-! ### One round -/

@[simp] theorem pairs_nil : pairs ([] : List α) = [] := rfl

@[simp] theorem pairs_singleton (a : α) : pairs [a] = [(a, a)] := rfl

@[simp] theorem pairs_cons_cons (a b : α) (rest : List α) :
    pairs (a :: b :: rest) = (a, b) :: pairs rest := rfl

@[simp] theorem pairUp_nil : pairUp node [] = [] := rfl

@[simp] theorem pairUp_singleton (a : α) : pairUp node [a] = [node a a] := rfl

@[simp] theorem pairUp_cons_cons (a b : α) (rest : List α) :
    pairUp node (a :: b :: rest) = node a b :: pairUp node rest := rfl

/-- A round halves the length, rounding up. -/
theorem length_pairs (l : List α) : (pairs l).length = (l.length + 1) / 2 := by
  induction l using pairs.induct with
  | case1 a b rest ih =>
      simp only [pairs_cons_cons, List.length_cons, ih]
      omega
  | case2 a => simp
  | case3 => simp

theorem length_pairUp (l : List α) : (pairUp node l).length = (l.length + 1) / 2 := by
  rw [pairUp, List.length_map, length_pairs]

theorem length_pairUp_lt {l : List α} (h : 1 < l.length) :
    (pairUp node l).length < l.length := by
  rw [length_pairUp]
  omega

theorem pairUp_ne_nil {l : List α} (h : l ≠ []) : pairUp node l ≠ [] := by
  have hl : 0 < l.length := List.length_pos_iff.mpr h
  have hp : 0 < (pairUp node l).length := by
    rw [length_pairUp]
    omega
  exact List.length_pos_iff.mp hp

/-- **The induction of the rounds**: a property of lists of at most one element that a
list inherits from its next round holds of every list. -/
theorem pairing_induction {P : List α → Prop} (base : ∀ l : List α, l.length ≤ 1 → P l)
    (step : ∀ l : List α, 1 < l.length → P (pairUp node l) → P l) (l : List α) : P l := by
  induction hn : l.length using Nat.strong_induction_on generalizing l with
  | _ n ih =>
      by_cases h : l.length ≤ 1
      · exact base l h
      · have hlt : 1 < l.length := by omega
        exact step l hlt (ih _ (hn ▸ length_pairUp_lt node hlt) _ rfl)

/-! ### The loop equations -/

/-- Fuel beyond the length changes nothing. -/
private theorem layersFuel_eq {n m : ℕ} {l : List α} (hn : l.length ≤ n + 1)
    (hm : l.length ≤ m + 1) : layersFuel node n l = layersFuel node m l := by
  induction n generalizing m l with
  | zero => cases m <;> simp [layersFuel, show l.length ≤ 1 by omega]
  | succ n ih =>
      by_cases h : l.length ≤ 1
      · cases m <;> simp [layersFuel, h]
      · obtain ⟨m, rfl⟩ : ∃ k, m = k + 1 := ⟨m - 1, by omega⟩
        have hlt := length_pairUp_lt node (l := l) (by omega)
        simp only [layersFuel, if_neg h]
        rw [ih (m := m) (by omega) (by omega)]

private theorem settleFuel_eq {n m : ℕ} {l : List α} (hn : l.length ≤ n + 1)
    (hm : l.length ≤ m + 1) : settleFuel node n l = settleFuel node m l := by
  induction n generalizing m l with
  | zero => cases m <;> simp [settleFuel, show l.length ≤ 1 by omega]
  | succ n ih =>
      by_cases h : l.length ≤ 1
      · cases m <;> simp [settleFuel, h]
      · obtain ⟨m, rfl⟩ : ∃ k, m = k + 1 := ⟨m - 1, by omega⟩
        have hlt := length_pairUp_lt node (l := l) (by omega)
        simp only [settleFuel, if_neg h]
        rw [ih (m := m) (by omega) (by omega)]

theorem layers_of_le_one {l : List α} (h : l.length ≤ 1) : layers node l = [l] := by
  rw [layers, layersFuel_eq node (m := 0) (by omega) (by omega), layersFuel]

theorem layers_of_one_lt {l : List α} (h : 1 < l.length) :
    layers node l = l :: layers node (pairUp node l) := by
  have hlt := length_pairUp_lt node h
  rw [layers, layersFuel_eq node (m := l.length + 1) (by omega) (by omega), layersFuel,
    if_neg (by omega), layers,
    layersFuel_eq node (n := l.length) (m := (pairUp node l).length) (by omega) (by omega)]

theorem settle_of_le_one {l : List α} (h : l.length ≤ 1) : settle node l = l := by
  rw [settle, settleFuel_eq node (m := 0) (by omega) (by omega), settleFuel]

theorem settle_of_one_lt {l : List α} (h : 1 < l.length) :
    settle node l = settle node (pairUp node l) := by
  have hlt := length_pairUp_lt node h
  rw [settle, settleFuel_eq node (m := l.length + 1) (by omega) (by omega), settleFuel,
    if_neg (by omega), settle,
    settleFuel_eq node (n := l.length) (m := (pairUp node l).length) (by omega) (by omega)]

theorem layers_ne_nil (l : List α) : layers node l ≠ [] := by
  by_cases h : l.length ≤ 1
  · simp [layers_of_le_one node h]
  · simp [layers_of_one_lt node (l := l) (by omega)]

/-- The rounds end with one element, unless they start with none. -/
theorem length_settle {l : List α} (h : l ≠ []) : (settle node l).length = 1 := by
  induction l using pairing_induction node with
  | base l hl =>
      have := List.length_pos_iff.mpr h
      rw [settle_of_le_one node hl]
      omega
  | step l hl ih =>
      rw [settle_of_one_lt node hl]
      exact ih (pairUp_ne_nil node h)

theorem settle_ne_nil {l : List α} (h : l ≠ []) : settle node l ≠ [] := by
  have := length_settle node h
  exact List.length_pos_iff.mp (by omega)

/-- The top of a non-empty list. -/
def top (l : List α) (h : l ≠ []) : α :=
  (settle node l).head (settle_ne_nil node h)

@[simp] theorem top_singleton (a : α) (h : [a] ≠ []) : top node [a] h = a := by
  simp [top, settle_of_le_one node (l := [a]) le_rfl]

/-- The top of a list is the top of its next round. -/
theorem top_pairUp {l : List α} (h : l ≠ []) (hl : 1 < l.length) :
    top node l h = top node (pairUp node l) (pairUp_ne_nil node h) := by
  simp only [top, settle_of_one_lt node hl]

@[simp] theorem joined_of_le_one {l : List α} (h : l.length ≤ 1) : joined node l = [] := by
  simp [joined, layers_of_le_one node h]

theorem joined_of_one_lt {l : List α} (h : 1 < l.length) :
    joined node l = pairs l ++ joined node (pairUp node l) := by
  rw [joined, layers_of_one_lt node h, List.dropLast_cons_of_ne_nil (layers_ne_nil node _),
    List.flatMap_cons, joined]

/-- The top of a list of two or more elements is itself a join. -/
theorem exists_joined_top {l : List α} (h : l ≠ []) (hl : 1 < l.length) :
    ∃ p ∈ joined node l, top node l h = node p.1 p.2 := by
  induction l using pairing_induction node with
  | base l hle => omega
  | step l hlt ih =>
      rw [joined_of_one_lt node hlt, top_pairUp node h hlt]
      by_cases h2 : 1 < (pairUp node l).length
      · obtain ⟨p, hp, htop⟩ := ih (pairUp_ne_nil node h) h2
        exact ⟨p, List.mem_append_right _ hp, htop⟩
      · -- the next round is the top itself, so this list is one pair
        rw [length_pairUp] at h2
        obtain ⟨a, b, rfl⟩ := List.length_eq_two.mp (show l.length = 2 by omega)
        exact ⟨(a, b), by simp, by simp⟩

/-- Layer `k` is the list after `k` rounds. -/
theorem getElem?_layers {l : List α} {k : ℕ} (h : k < (layers node l).length) :
    (layers node l)[k]? = some ((pairUp node)^[k] l) := by
  induction l using pairing_induction node generalizing k with
  | base l hl =>
      rw [layers_of_le_one node hl, List.length_singleton] at h
      obtain rfl : k = 0 := by omega
      rw [layers_of_le_one node hl]
      rfl
  | step l hl ih =>
      rw [layers_of_one_lt node hl] at h ⊢
      cases k with
      | zero => rfl
      | succ k => rw [List.getElem?_cons_succ, ih (by simpa using h), Function.iterate_succ_apply]

/-- `k` rounds divide the length by `2 ^ k`, rounding up. -/
theorem length_iterate_pairUp (l : List α) (k : ℕ) :
    ((pairUp node)^[k] l).length = (l.length + 2 ^ k - 1) / 2 ^ k := by
  induction k with
  | zero => simp
  | succ k ih =>
      have hpos : 0 < 2 ^ k := Nat.two_pow_pos k
      rw [Function.iterate_succ_apply', length_pairUp, ih, ← Nat.add_div_right _ hpos,
        Nat.div_div_eq_div_mul, ← pow_succ]
      congr 1
      rw [pow_succ]
      omega

/-- The last layer is the top alone. -/
theorem getLast?_layers {l : List α} (h : l ≠ []) :
    (layers node l).getLast? = some [top node l h] := by
  induction l using pairing_induction node with
  | base l hl =>
      have hpos := List.length_pos_iff.mpr h
      obtain ⟨a, rfl⟩ := List.length_eq_one_iff.mp (show l.length = 1 by omega)
      rw [layers_of_le_one node hl, top_singleton]
      rfl
  | step l hl ih =>
      rw [layers_of_one_lt node hl, List.getLast?_cons_of_ne_nil (layers_ne_nil node _),
        ih (pairUp_ne_nil node h), ← top_pairUp node h hl]

/-! ### The walk to the top -/

theorem sibling_cons_cons (a b : α) (rest : List α) (i : ℕ) :
    sibling (a :: b :: rest) (i + 2) = sibling rest i := by
  have hlen : ∀ j, j + 2 < (a :: b :: rest).length ↔ j < rest.length := by
    intro j
    simp only [List.length_cons]
    omega
  by_cases h : i % 2 = 0
  · have hi : i + 2 + 1 = i + 1 + 2 := by omega
    simp only [sibling, Nat.add_mod_right, h, if_true, hi, hlen, List.getElem?_cons_succ]
  · have hi : i + 2 - 1 = i - 1 + 2 := by omega
    simp only [sibling, Nat.add_mod_right, h, if_false, hi, hlen, List.getElem?_cons_succ]

/-- **The step of the walk**: an element joined with its sibling is its parent. -/
theorem sibling_spec {l : List α} {i : ℕ} {x : α} (h : l[i]? = some x) :
    ∃ s, sibling l i = some s ∧
      (pairUp node l)[i / 2]? = some (foldStep node x (s, i % 2 == 0)) := by
  induction l using pairs.induct generalizing i with
  | case1 a b rest ih =>
      match i with
      | 0 =>
          obtain rfl : a = x := by simpa using h
          exact ⟨b, by simp [sibling], by simp [foldStep]⟩
      | 1 =>
          obtain rfl : b = x := by simpa using h
          exact ⟨a, by simp [sibling], by simp [foldStep]⟩
      | i + 2 =>
          obtain ⟨s, hs, hup⟩ := ih (by simpa using h)
          refine ⟨s, by rw [sibling_cons_cons, hs], ?_⟩
          simpa [show (i + 2) / 2 = i / 2 + 1 by omega] using hup
  | case2 a =>
      obtain ⟨rfl, rfl⟩ : i = 0 ∧ a = x := by
        cases i <;> simp_all
      exact ⟨a, by simp [sibling], by simp [foldStep]⟩
  | case3 => simp at h

/-- **The run of the walk**: the path through all layers exists from every index, and
it folds to the join of the top with itself. -/
theorem foldPath_path_layers {l : List α} {i : ℕ} {x : α} (hne : l ≠ [])
    (h : l[i]? = some x) :
    ∃ p, path (layers node l) i = some p ∧
      foldPath node x p = node (top node l hne) (top node l hne) := by
  induction l using pairing_induction node generalizing i x with
  | base l hl =>
      have hpos := List.length_pos_iff.mpr hne
      obtain ⟨a, rfl⟩ := List.length_eq_one_iff.mp (show l.length = 1 by omega)
      obtain ⟨rfl, rfl⟩ : i = 0 ∧ a = x := by
        cases i <;> simp_all
      exact ⟨[(a, true)], by simp [layers_of_le_one, path, sibling],
        by simp [foldPath, foldStep]⟩
  | step l hl ih =>
      obtain ⟨s, hs, hup⟩ := sibling_spec node h
      obtain ⟨p, hp, hfold⟩ := ih (pairUp_ne_nil node hne) hup
      refine ⟨(s, i % 2 == 0) :: p, ?_, ?_⟩
      · rw [layers_of_one_lt node hl]
        simp [path, hs, hp]
      · rw [foldPath, hfold, ← top_pairUp node hne hl]

theorem foldStep_eq (x : α) (s : α × Bool) :
    foldStep node x s = node (stepPair x s).1 (stepPair x s).2 := by
  unfold foldStep stepPair
  split <;> rfl

/-- A path that is not empty ends in a join of the walk. -/
theorem exists_foldPairs_foldPath (x : α) {p : List (α × Bool)} (h : p ≠ []) :
    ∃ q ∈ foldPairs node x p, foldPath node x p = node q.1 q.2 := by
  induction p generalizing x with
  | nil => exact absurd rfl h
  | cons s rest ih =>
      by_cases hr : rest = []
      · subst hr
        exact ⟨stepPair x s, by simp [foldPairs], foldStep_eq node x s⟩
      · obtain ⟨q, hq, hfold⟩ := ih (foldStep node x s) hr
        exact ⟨q, List.mem_cons_of_mem _ hq, hfold⟩

/-- When `node r r = r` and no other pair met joins to `r`, a walk that reaches `r` was
at `r` from the start. Induction on the path; the last join is inverted first. -/
theorem foldPath_eq_fixed {r x : α} {p : List (α × Bool)}
    (hinv : ∀ q ∈ foldPairs node x p, node q.1 q.2 = r → q = (r, r))
    (h : foldPath node x p = r) : x = r := by
  induction p generalizing x with
  | nil => exact h
  | cons s rest ih =>
      have hstep : foldStep node x s = r :=
        ih (fun q hq => hinv q (List.mem_cons_of_mem _ hq)) h
      rw [foldStep_eq] at hstep
      have hpair := hinv _ (List.mem_cons_self ..) hstep
      rw [stepPair] at hpair
      split at hpair
      · exact congrArg Prod.fst hpair
      · exact congrArg Prod.snd hpair

/-- Equal pairs of steps with equal flags come from equal elements and siblings. -/
theorem stepPair_inj {x y : α} {s t : α × Bool} (hflag : s.2 = t.2)
    (h : stepPair x s = stepPair y t) : x = y ∧ s = t := by
  obtain ⟨sx, right⟩ := s
  obtain ⟨tx, right'⟩ := t
  obtain rfl : right = right' := hflag
  cases right with
  | true =>
      obtain ⟨rfl, rfl⟩ := Prod.mk.inj h
      exact ⟨rfl, rfl⟩
  | false =>
      obtain ⟨rfl, rfl⟩ := Prod.mk.inj h
      exact ⟨rfl, rfl⟩

/-- **Binding of walks**: two walks with the same flags that end alike start alike and meet the
same siblings, or one of them joins a pair alike with a different pair of the other. Induction
on the first path; what the later steps say of the first joins is inverted last. -/
theorem foldPath_binding {x y : α} {p q : List (α × Bool)}
    (hflags : p.map Prod.snd = q.map Prod.snd)
    (h : foldPath node x p = foldPath node y q) :
    (x = y ∧ p = q) ∨ ∃ a ∈ foldPairs node x p, ∃ b ∈ foldPairs node y q,
      a ≠ b ∧ node a.1 a.2 = node b.1 b.2 := by
  induction p generalizing x y q with
  | nil =>
      obtain rfl : q = [] := List.map_eq_nil_iff.mp hflags.symm
      exact Or.inl ⟨h, rfl⟩
  | cons s rest ih =>
      cases q with
      | nil => simp at hflags
      | cons t rest' =>
          obtain ⟨hflag, hrest⟩ := List.cons.inj hflags
          rcases ih hrest h with ⟨hstep, rfl⟩ | ⟨a, ha, b, hb, hab⟩
          · rw [foldStep_eq, foldStep_eq] at hstep
            by_cases hpair : stepPair x s = stepPair y t
            · obtain ⟨rfl, rfl⟩ := stepPair_inj hflag hpair
              exact Or.inl ⟨rfl, rfl⟩
            · exact Or.inr ⟨_, List.mem_cons_self .., _, List.mem_cons_self .., hpair, hstep⟩
          · exact Or.inr ⟨a, List.mem_cons_of_mem _ ha, b, List.mem_cons_of_mem _ hb, hab⟩

/-- A round of copies of a fixed point of `node` is copies of it again. -/
theorem pairUp_eq_fixed {r : α} (hr : node r r = r) {l : List α} (h : ∀ x ∈ l, x = r) :
    ∀ x ∈ pairUp node l, x = r := by
  induction l using pairs.induct with
  | case1 a b rest ih =>
      obtain rfl : a = r := h a (by simp)
      obtain rfl : b = a := h b (by simp)
      intro x hx
      rw [pairUp_cons_cons, List.mem_cons] at hx
      rcases hx with rfl | hx
      · exact hr
      · exact ih (fun y hy => h y (by simp [hy])) x hx
  | case2 a =>
      obtain rfl : a = r := h a (by simp)
      simpa using hr
  | case3 => simp

/-- The top of copies of a fixed point of `node` is the fixed point. -/
theorem top_eq_fixed {r : α} (hr : node r r = r) {l : List α} (hne : l ≠ [])
    (h : ∀ x ∈ l, x = r) : top node l hne = r := by
  induction l using pairing_induction node with
  | base l hl =>
      have hpos := List.length_pos_iff.mpr hne
      obtain ⟨a, rfl⟩ := List.length_eq_one_iff.mp (show l.length = 1 by omega)
      rw [top_singleton]
      exact h a (by simp)
  | step l hl ih =>
      rw [top_pairUp node hne hl]
      exact ih (pairUp_ne_nil node hne) (pairUp_eq_fixed node hr h)

/-! ### Binding -/

/-- A list is determined by its length and its pairs. -/
theorem eq_of_pairs_eq {l₁ l₂ : List α} (hlen : l₁.length = l₂.length)
    (h : pairs l₁ = pairs l₂) : l₁ = l₂ := by
  induction l₁ using pairs.induct generalizing l₂ with
  | case1 a b rest ih =>
      match l₂, hlen with
      | a' :: b' :: rest', hlen =>
          simp only [pairs_cons_cons, List.cons.injEq, Prod.mk.injEq] at h
          obtain ⟨⟨rfl, rfl⟩, hrest⟩ := h
          rw [ih (by simpa using hlen) hrest]
  | case2 a =>
      match l₂, hlen with
      | [a'], _ =>
          simp only [pairs_singleton, List.cons.injEq, Prod.mk.injEq] at h
          rw [h.1.1]
  | case3 => exact (List.length_eq_zero_iff.mp hlen.symm).symm

/-- Lists with one image are equal, when the function is injective on their elements. -/
theorem eq_of_map_eq {β γ : Type*} {f : β → γ} {l₁ l₂ : List β}
    (hinj : Set.InjOn f {b | b ∈ l₁ ∨ b ∈ l₂}) (h : l₁.map f = l₂.map f) : l₁ = l₂ := by
  induction l₁ generalizing l₂ with
  | nil => exact (List.map_eq_nil_iff.mp h.symm).symm
  | cons b rest ih =>
      cases l₂ with
      | nil => simp at h
      | cons b' rest' =>
          simp only [List.map_cons, List.cons.injEq] at h
          obtain rfl : b = b' :=
            hinj (Or.inl (List.mem_cons_self ..)) (Or.inr (List.mem_cons_self ..)) h.1
          have hrest : rest = rest' := by
            refine ih (hinj.mono ?_) h.2
            rintro c (hc | hc)
            · exact Or.inl (List.mem_cons_of_mem _ hc)
            · exact Or.inr (List.mem_cons_of_mem _ hc)
          rw [hrest]

/-- One round is injective on lists of one length, as far as `node` is on their pairs. -/
theorem pairUp_injOn {l₁ l₂ : List α} (hlen : l₁.length = l₂.length)
    (hinj : Set.InjOn (fun p : α × α => node p.1 p.2) {p | p ∈ pairs l₁ ∨ p ∈ pairs l₂})
    (h : pairUp node l₁ = pairUp node l₂) : l₁ = l₂ :=
  eq_of_pairs_eq hlen (eq_of_map_eq hinj h)

/-- **Binding of the top**: lists of one length with equal tops are equal, when `node`
is injective on the pairs joined in the two constructions. -/
theorem top_injOn {l₁ l₂ : List α} (h₁ : l₁ ≠ []) (h₂ : l₂ ≠ [])
    (hlen : l₁.length = l₂.length)
    (hinj : Set.InjOn (fun p : α × α => node p.1 p.2)
      {p | p ∈ joined node l₁ ∨ p ∈ joined node l₂})
    (h : top node l₁ h₁ = top node l₂ h₂) : l₁ = l₂ := by
  induction l₁ using pairing_induction node generalizing l₂ with
  | base l₁ hl =>
      have hpos := List.length_pos_iff.mpr h₁
      obtain ⟨a, rfl⟩ := List.length_eq_one_iff.mp (show l₁.length = 1 by omega)
      obtain ⟨b, rfl⟩ := List.length_eq_one_iff.mp hlen.symm
      simpa using h
  | step l₁ hl ih =>
      have hl₂ : 1 < l₂.length := hlen ▸ hl
      rw [joined_of_one_lt node hl, joined_of_one_lt node hl₂] at hinj
      rw [top_pairUp node h₁ hl, top_pairUp node h₂ hl₂] at h
      have hup : pairUp node l₁ = pairUp node l₂ := by
        refine ih (pairUp_ne_nil node h₁) (pairUp_ne_nil node h₂)
          (by rw [length_pairUp, length_pairUp, hlen]) (hinj.mono ?_) h
        rintro p (hp | hp)
        · exact Or.inl (List.mem_append_right _ hp)
        · exact Or.inr (List.mem_append_right _ hp)
      refine pairUp_injOn node hlen (hinj.mono ?_) hup
      rintro p (hp | hp)
      · exact Or.inl (List.mem_append_left _ hp)
      · exact Or.inr (List.mem_append_left _ hp)

/-! ### Binding across lengths

A lone last element is joined with itself, so that the lists `[a, b, c]` and `[a, b, c, c]`
have one top; and a list of one element is its own top, so that an element may be the top of
another list. Distinct elements exclude the first, elements that are no joins the second. -/

theorem map_fst_pairs_sublist (l : List α) : ((pairs l).map Prod.fst).Sublist l := by
  induction l using pairs.induct with
  | case1 a b rest ih => exact (ih.cons b).cons_cons a
  | case2 a => exact List.Sublist.refl _
  | case3 => exact List.Sublist.refl _

theorem nodup_pairs {l : List α} (h : l.Nodup) : (pairs l).Nodup :=
  List.Nodup.of_map Prod.fst (h.sublist (map_fst_pairs_sublist l))

/-- A round keeps distinct elements distinct, as far as `node` is injective. -/
theorem nodup_pairUp {l : List α} (h : l.Nodup)
    (hinj : Set.InjOn (fun p : α × α => node p.1 p.2) {p | p ∈ pairs l}) :
    (pairUp node l).Nodup :=
  List.Nodup.map_on (fun _ hp _ hq hpq => hinj hp hq hpq) (nodup_pairs h)

/-- A list of distinct elements is determined by its pairs. -/
theorem eq_of_pairs_eq_of_nodup {l₁ l₂ : List α} (h₁ : l₁.Nodup) (h₂ : l₂.Nodup)
    (h : pairs l₁ = pairs l₂) : l₁ = l₂ := by
  induction l₁ using pairs.induct generalizing l₂ with
  | case1 a b rest ih =>
      match l₂, h, h₂ with
      | [], h, _ => simp at h
      | [a'], h, _ =>
          simp only [pairs_cons_cons, pairs_singleton, List.cons.injEq, Prod.mk.injEq] at h
          obtain ⟨⟨rfl, rfl⟩, -⟩ := h
          simp at h₁
      | a' :: b' :: rest', h, h₂ =>
          simp only [pairs_cons_cons, List.cons.injEq, Prod.mk.injEq] at h
          obtain ⟨⟨rfl, rfl⟩, hrest⟩ := h
          rw [ih h₁.of_cons.of_cons h₂.of_cons.of_cons hrest]
  | case2 a =>
      match l₂, h, h₂ with
      | [], h, _ => simp at h
      | [a'], h, _ =>
          simp only [pairs_singleton, List.cons.injEq, Prod.mk.injEq] at h
          rw [h.1.1]
      | a' :: b' :: rest', h, h₂ =>
          simp only [pairs_cons_cons, pairs_singleton, List.cons.injEq, Prod.mk.injEq] at h
          obtain ⟨⟨rfl, rfl⟩, -⟩ := h
          simp at h₂
  | case3 =>
      match l₂, h with
      | [], _ => rfl
      | [_], h => simp at h
      | _ :: _ :: _, h => simp at h

/-- What is joined on the left is an element of the list or a join below. -/
theorem fst_of_mem_joined {l : List α} {q : α × α} (h : q ∈ joined node l) :
    q.1 ∈ l ∨ ∃ p ∈ joined node l, q.1 = node p.1 p.2 := by
  induction l using pairing_induction node with
  | base l hl => simp [joined_of_le_one node hl] at h
  | step l hl ih =>
      rw [joined_of_one_lt node hl, List.mem_append] at h
      rcases h with h | h
      · exact Or.inl ((map_fst_pairs_sublist l).subset (List.mem_map_of_mem h))
      · right
        rcases ih h with hround | ⟨p, hp, hq⟩
        · obtain ⟨p, hp, hq⟩ := List.mem_map.mp hround
          exact ⟨p, by rw [joined_of_one_lt node hl]; exact List.mem_append_left _ hp, hq.symm⟩
        · exact ⟨p, by rw [joined_of_one_lt node hl]; exact List.mem_append_right _ hp, hq⟩

/-- No element of one list is a join of the construction over the other. -/
def Apart (l₁ l₂ : List α) : Prop :=
  ∀ x ∈ l₁, ∀ q ∈ joined node l₂, x ≠ node q.1 q.2

/-- A round keeps two lists apart: a join of the first list that is a join further up in the
second would have an element of the first list as a join of the second. -/
theorem Apart.pairUp {l₁ l₂ : List α} (h : Apart node l₁ l₂) (hl₁ : 1 < l₁.length)
    (hl₂ : 1 < l₂.length)
    (hinj : Set.InjOn (fun p : α × α => node p.1 p.2)
      {p | p ∈ joined node l₁ ∨ p ∈ joined node l₂}) :
    Apart node (pairUp node l₁) (pairUp node l₂) := by
  intro y hy q hq heq
  obtain ⟨p, hp, rfl⟩ := List.mem_map.mp hy
  have hp' : p ∈ joined node l₁ := by
    rw [joined_of_one_lt node hl₁]
    exact List.mem_append_left _ hp
  have hq' : q ∈ joined node l₂ := by
    rw [joined_of_one_lt node hl₂]
    exact List.mem_append_right _ hq
  obtain rfl : p = q := hinj (Or.inl hp') (Or.inr hq') heq
  have hfst : p.1 ∈ l₁ := (map_fst_pairs_sublist l₁).subset (List.mem_map_of_mem hp)
  rcases fst_of_mem_joined node hq with hround | ⟨r, hr, hjoin⟩
  · obtain ⟨r, hr, hjoin⟩ := List.mem_map.mp hround
    refine h p.1 hfst r ?_ hjoin.symm
    rw [joined_of_one_lt node hl₂]
    exact List.mem_append_left _ hr
  · refine h p.1 hfst r ?_ hjoin
    rw [joined_of_one_lt node hl₂]
    exact List.mem_append_right _ hr

/-- A list of one element has the top of a longer list only when that element is a join. -/
theorem length_le_one_of_top_eq {l₁ l₂ : List α} (h₁ : l₁ ≠ []) (h₂ : l₂ ≠ [])
    (hapart : Apart node l₁ l₂) (hl : l₁.length ≤ 1) (h : top node l₁ h₁ = top node l₂ h₂) :
    l₂.length ≤ 1 := by
  by_contra hlong
  have hpos := List.length_pos_iff.mpr h₁
  obtain ⟨a, rfl⟩ := List.length_eq_one_iff.mp (show l₁.length = 1 by omega)
  obtain ⟨q, hq, htop⟩ := exists_joined_top node h₂ (by omega)
  rw [top_singleton, htop] at h
  exact hapart a (List.mem_singleton_self a) q hq h

/-- **Induction on equal tops**: what holds of two equal lists of one element, and of two longer
lists when it holds of their next rounds, holds of lists with equal tops, when `node` is
injective on the pairs joined in the two constructions and no element of one list is a join of
the other. A list of one element has no longer partner. -/
theorem top_eq_induction {motive : List α → List α → Prop} (base : ∀ a, motive [a] [a])
    (step : ∀ l₁ l₂, 1 < l₁.length → 1 < l₂.length →
      Set.InjOn (fun p : α × α => node p.1 p.2) {p | p ∈ pairs l₁ ∨ p ∈ pairs l₂} →
        motive (pairUp node l₁) (pairUp node l₂) → motive l₁ l₂)
    {l₁ l₂ : List α} (h₁ : l₁ ≠ []) (h₂ : l₂ ≠ [])
    (hinj : Set.InjOn (fun p : α × α => node p.1 p.2)
      {p | p ∈ joined node l₁ ∨ p ∈ joined node l₂})
    (hap₁ : Apart node l₁ l₂) (hap₂ : Apart node l₂ l₁)
    (h : top node l₁ h₁ = top node l₂ h₂) : motive l₁ l₂ := by
  induction l₁ using pairing_induction node generalizing l₂ with
  | base l₁ hl₁ =>
      have hl₂ := length_le_one_of_top_eq node h₁ h₂ hap₁ hl₁ h
      have hpos₁ := List.length_pos_iff.mpr h₁
      have hpos₂ := List.length_pos_iff.mpr h₂
      obtain ⟨a, rfl⟩ := List.length_eq_one_iff.mp (show l₁.length = 1 by omega)
      obtain ⟨b, rfl⟩ := List.length_eq_one_iff.mp (show l₂.length = 1 by omega)
      obtain rfl : a = b := by simpa using h
      exact base a
  | step l₁ hl₁ ih =>
      have hl₂ : 1 < l₂.length := by
        by_contra hshort
        have := length_le_one_of_top_eq node h₂ h₁ hap₂ (by omega) h.symm
        omega
      have hup₁ := hap₁.pairUp node hl₁ hl₂ hinj
      have hup₂ := hap₂.pairUp node hl₂ hl₁ (hinj.mono fun p hp => Or.symm hp)
      rw [joined_of_one_lt node hl₁, joined_of_one_lt node hl₂] at hinj
      rw [top_pairUp node h₁ hl₁, top_pairUp node h₂ hl₂] at h
      refine step l₁ l₂ hl₁ hl₂ ?_ ?_
      · exact hinj.mono fun p hp => hp.imp (List.mem_append_left _) (List.mem_append_left _)
      · exact ih (pairUp_ne_nil node h₁) (pairUp_ne_nil node h₂)
          (hinj.mono fun p hp => hp.imp (List.mem_append_right _) (List.mem_append_right _))
          hup₁ hup₂ h

/-- **Binding across lengths**: lists of distinct elements with equal tops are equal, when
`node` is injective on the pairs joined in the two constructions and no element of one list
is a join of the other. -/
theorem top_injOn_of_nodup {l₁ l₂ : List α} (h₁ : l₁ ≠ []) (h₂ : l₂ ≠ []) (hd₁ : l₁.Nodup)
    (hd₂ : l₂.Nodup)
    (hinj : Set.InjOn (fun p : α × α => node p.1 p.2)
      {p | p ∈ joined node l₁ ∨ p ∈ joined node l₂})
    (hap₁ : Apart node l₁ l₂) (hap₂ : Apart node l₂ l₁)
    (h : top node l₁ h₁ = top node l₂ h₂) : l₁ = l₂ := by
  have hrounds : l₁.Nodup → l₂.Nodup → l₁ = l₂ := by
    refine top_eq_induction node (motive := fun l₁ l₂ => l₁.Nodup → l₂.Nodup → l₁ = l₂)
      (fun _ _ _ => rfl) (fun l₁ l₂ _ _ hpairs ih hd₁ hd₂ => ?_) h₁ h₂ hinj hap₁ hap₂ h
    have hround : pairUp node l₁ = pairUp node l₂ :=
      ih (nodup_pairUp node hd₁ (hpairs.mono fun p hp => Or.inl hp))
        (nodup_pairUp node hd₂ (hpairs.mono fun p hp => Or.inr hp))
    exact eq_of_pairs_eq_of_nodup hd₁ hd₂ (eq_of_map_eq hpairs hround)
  exact hrounds hd₁ hd₂

end PairTree
