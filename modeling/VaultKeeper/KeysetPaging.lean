import Mathlib.Data.List.Basic
import Mathlib.Order.Defs.Unbundled

/-!
# Reading a Growing Table by Pages

The rows of a table are kept in increasing order of a key. A reader asks for the rows after a
key, a page of them at a time, and goes on after the key of the last row it got; rows with
larger keys than all others may be added between two pages. What it has read and what is still
after its key are then, at each point, the rows after the key it started with.

## Main results

* `after_next`: the rows after the last key of a page are those the page left out.
* `Tracks.refl`, `Tracks.page`, `Tracks.append`: the reader starts in step with the table, and
  stays so with each page and each new row.
* `Tracks.increasing`: what it has received is in order.
-/

namespace KeysetPaging

variable {α κ : Type*} [LT κ] [DecidableLT κ] (key : α → κ)

/-- The rows after a key. -/
def after (k : κ) (rows : List α) : List α :=
  rows.filter fun r => k < key r

/-- The key to go on after: that of the last row of a page, or the old one. -/
def next (k : κ) (page : List α) : κ :=
  (page.getLast?.map key).getD k

/-- The rows are in increasing order of their keys. -/
def Increasing (rows : List α) : Prop :=
  rows.Pairwise fun r s => key r < key s

/-- A reader that started after one key, is now after another, and has received some rows. -/
structure Tracks (start : κ) (rows : List α) (k : κ) (received : List α) : Prop where
  /-- What it has received and what it still sees is what is after its start. -/
  split : received ++ after key k rows = after key start rows
  /-- Its key is where it started, or that of a row. -/
  atRow : k = start ∨ start < k ∧ ∃ r ∈ rows, key r = k

variable {key} {start k : κ} {rows received : List α} {n : ℕ}

theorem Increasing.after (h : Increasing key rows) : Increasing key (after key k rows) :=
  List.Pairwise.filter _ h

theorem Tracks.refl (start : κ) (rows : List α) : Tracks key start rows start [] where
  split := rfl
  atRow := Or.inl rfl

/-- What has been received is in order. -/
theorem Tracks.increasing (h : Tracks key start rows k received) (hrows : Increasing key rows) :
    Increasing key received := by
  have hall : Increasing key (received ++ KeysetPaging.after key k rows) := h.split ▸ hrows.after
  exact (List.pairwise_append.mp hall).1

/-! ### One page -/

variable [IsStrictOrder κ (· < ·)]

/-- The rows after a later key are among those after an earlier one. -/
theorem after_after {k' : κ} (h : k < k') :
    after key k' (after key k rows) = after key k' rows := by
  rw [after, after, after, List.filter_filter]
  refine List.filter_congr fun r _ => ?_
  by_cases hr : k' < key r
  · have hk : k < key r := IsTrans.trans k k' (key r) h hr
    simp [hr, hk]
  · simp [hr]

/-- Rows in order that start with others: the ones after the last of these are the rest. -/
theorem after_last_append {front rest : List α} {last : α}
    (h : Increasing key (front ++ last :: rest)) :
    after key (key last) (front ++ last :: rest) = rest := by
  obtain ⟨-, hrest, hcross⟩ := List.pairwise_append.mp h
  have hirrefl : ∀ k : κ, ¬ k < k := Std.Irrefl.irrefl (r := (· < ·))
  have hfront : front.filter (fun r => key last < key r) = [] := by
    refine List.filter_eq_nil_iff.mpr fun r hr hlt => ?_
    have hback : key last < key r := by simpa using hlt
    have hloop := IsTrans.trans (key last) (key r) (key last) hback
      (hcross r hr last (List.mem_cons_self ..))
    exact hirrefl _ hloop
  have hback : rest.filter (fun r => key last < key r) = rest := by
    refine List.filter_eq_self.mpr fun r hr => ?_
    simpa using (List.pairwise_cons.mp hrest).1 r hr
  rw [after, List.filter_append, hfront, List.nil_append, List.filter_cons, hback]
  simp [hirrefl]

/-- The rows after the last key of a page of all rows are those the page left out. -/
theorem after_last_take (h : Increasing key rows) {last : α}
    (hlast : (rows.take n).getLast? = some last) : after key (key last) rows = rows.drop n := by
  obtain ⟨front, hfront⟩ := List.getLast?_eq_some_iff.mp hlast
  have hsplit : front ++ last :: rows.drop n = rows := by
    rw [← List.singleton_append, ← List.append_assoc, ← hfront, List.take_append_drop]
  have hrest : after key (key last) (front ++ last :: rows.drop n) = rows.drop n :=
    after_last_append (by rwa [hsplit])
  rwa [hsplit] at hrest

/-- **One page**: the rows after the next key are those the page left out. -/
theorem after_next (h : Increasing key rows) (n : ℕ) :
    after key (next key k ((after key k rows).take n)) rows = (after key k rows).drop n := by
  cases hlast : ((after key k rows).take n).getLast? with
  | none =>
      have hnil : (after key k rows).take n = [] := List.getLast?_eq_none_iff.mp hlast
      have hall := List.take_append_drop n (after key k rows)
      rw [hnil, List.nil_append] at hall
      rw [next, hlast, hall]
      rfl
  | some last =>
      have hmem := List.mem_of_mem_take (List.mem_of_getLast? hlast)
      have hlt : k < key last := by simpa using (List.mem_filter.mp hmem).2
      rw [next, hlast, Option.map_some, Option.getD_some, ← after_after hlt]
      exact after_last_take h.after hlast

/-- A page leaves fewer rows, unless none were left. -/
theorem length_after_next_lt (h : Increasing key rows) (hn : 0 < n)
    (hne : after key k rows ≠ []) :
    (after key (next key k ((after key k rows).take n)) rows).length <
      (after key k rows).length := by
  have hpos := List.length_pos_iff.mpr hne
  rw [after_next h, List.length_drop]
  omega

/-! ### The reader -/

/-- **A page** keeps the reader in step. -/
theorem Tracks.page (h : Tracks key start rows k received) (hrows : Increasing key rows) (n : ℕ) :
    Tracks key start rows (next key k ((after key k rows).take n))
      (received ++ (after key k rows).take n) where
  split := by
    rw [after_next hrows, List.append_assoc, List.take_append_drop, h.split]
  atRow := by
    cases hlast : ((after key k rows).take n).getLast? with
    | none =>
        rw [next, hlast]
        exact h.atRow
    | some last =>
        obtain ⟨hmem, hlt⟩ := List.mem_filter.mp
          (List.mem_of_mem_take (List.mem_of_getLast? hlast))
        have hk : k < key last := by simpa using hlt
        rw [next, hlast, Option.map_some, Option.getD_some]
        refine Or.inr ⟨?_, last, hmem, rfl⟩
        rcases h.atRow with rfl | ⟨hstart, -⟩
        · exact hk
        · exact IsTrans.trans start k (key last) hstart hk

/-- **A new row** keeps the reader in step, whichever key it is after. -/
theorem Tracks.append (h : Tracks key start rows k received) {r : α}
    (hr : ∀ s ∈ rows, key s < key r) : Tracks key start (rows ++ [r]) k received where
  split := by
    have hsame : k < key r ↔ start < key r := by
      rcases h.atRow with rfl | ⟨hstart, s, hs, rfl⟩
      · rfl
      · exact iff_of_true (hr s hs) (IsTrans.trans start (key s) (key r) hstart (hr s hs))
    have hnew : after key k [r] = after key start [r] := by
      rw [after, after, List.filter_singleton, List.filter_singleton, decide_eq_decide.mpr hsame]
    rw [after, after, List.filter_append, List.filter_append]
    change received ++ (after key k rows ++ after key k [r]) =
      after key start rows ++ after key start [r]
    rw [← List.append_assoc, h.split, hnew]
  atRow := by
    refine h.atRow.imp_right fun hk => ⟨hk.1, ?_⟩
    obtain ⟨s, hs, hkey⟩ := hk.2
    exact ⟨s, List.mem_append_left _ hs, hkey⟩

end KeysetPaging
