import Mathlib.Data.List.Sections

/-!
# Erasure Codes

A code is a set of words, lists of symbols of one alphabet; a word some of whose symbols
were lost is a `pattern`. When any `k` symbols of a word determine it, a pattern with `k`
known symbols fits one word of the code at most, and over a finite alphabet that word is
found by search.

A code is used on rows of symbols by taking it column by column (`Interleaved`): every
column of a word of rows is a word of the code.

## Main results

* `complete_eq`: the search finds the word a pattern was made from.
* `completeColumns_eq`: so does the search column by column.
-/

namespace ErasureCode

variable {α : Type*}

/-- The word has the known symbols of the pattern in their places. -/
def Fits (pattern : List (Option α)) (word : List α) : Prop :=
  List.Forall₂ (fun o x => ∀ y ∈ o, y = x) pattern word

/-- The number of known symbols. -/
def known (pattern : List (Option α)) : ℕ :=
  pattern.countP Option.isSome

/-- Any `k` symbols of a word of the code determine it. -/
def DeterminedBy (k : ℕ) (code : List α → Bool) : Prop :=
  ∀ pattern w w', k ≤ known pattern → Fits pattern w → Fits pattern w' →
    code w = true → code w' = true → w = w'

/-- The symbols a place of a pattern may have. -/
def candidates (alphabet : List α) : Option α → List α
  | some x => [x]
  | none => alphabet

/-- A word of the code that fits the pattern. -/
def complete (alphabet : List α) (code : List α → Bool) (pattern : List (Option α)) :
    Option (List α) :=
  (pattern.map (candidates alphabet)).sections.find? code

/-- The first symbols of the known rows. -/
def heads (rows : List (Option (List α))) : List (Option α) :=
  rows.map fun row => row.bind List.head?

/-- The known rows without their first symbols. -/
def tails (rows : List (Option (List α))) : List (Option (List α)) :=
  rows.map fun row => row.map List.tail

/-- The rows of `n` symbols that fit the known rows and have words of the code as columns. -/
def completeColumns (alphabet : List α) (code : List α → Bool) :
    ℕ → List (Option (List α)) → Option (List (List α))
  | 0, rows => some (rows.map fun _ => [])
  | n + 1, rows => do
      let column ← complete alphabet code (heads rows)
      let rest ← completeColumns alphabet code n (tails rows)
      pure (List.zipWith List.cons column rest)

/-- Rows of `n` symbols whose columns are words of the code. -/
def Interleaved (code : List α → Bool) : ℕ → List (List α) → Prop
  | 0, rows => ∀ row ∈ rows, row = []
  | n + 1, rows => ∃ column rest, rows = List.zipWith List.cons column rest ∧
      column.length = rest.length ∧ code column = true ∧ Interleaved code n rest

/-! ### One word -/

@[simp] theorem fits_nil : Fits ([] : List (Option α)) [] := List.Forall₂.nil

@[simp] theorem fits_cons_cons {o : Option α} {x : α} {pattern : List (Option α)}
    {word : List α} :
    Fits (o :: pattern) (x :: word) ↔ (∀ y ∈ o, y = x) ∧ Fits pattern word :=
  List.forall₂_cons

theorem Fits.length_eq {pattern : List (Option α)} {word : List α} (h : Fits pattern word) :
    pattern.length = word.length :=
  List.Forall₂.length_eq h

@[simp] theorem known_nil : known ([] : List (Option α)) = 0 := rfl

theorem known_cons (o : Option α) (pattern : List (Option α)) :
    known (o :: pattern) = known pattern + if o.isSome then 1 else 0 := by
  rw [known, List.countP_cons, known]

/-- The sections of the candidates are the words that fit. -/
theorem mem_sections_candidates {alphabet : List α} (hall : ∀ x, x ∈ alphabet)
    {pattern : List (Option α)} {word : List α} :
    word ∈ (pattern.map (candidates alphabet)).sections ↔ Fits pattern word := by
  rw [List.mem_sections, List.forall₂_map_right_iff]
  have hcandidates : ∀ o x, x ∈ candidates alphabet o ↔ ∀ y ∈ o, y = x := by
    rintro (_ | y) x
    · simp [candidates, hall]
    · simp [candidates, eq_comm]
  constructor
  · exact fun h => (h.imp fun x o hx => (hcandidates o x).mp hx).flip
  · exact fun h => (h.imp fun o x hx => (hcandidates o x).mpr hx).flip

/-- **Completion**: a pattern with `k` known symbols of a word is completed to it. -/
theorem complete_eq {k : ℕ} {alphabet : List α} {code : List α → Bool}
    (hcode : DeterminedBy k code) (hall : ∀ x, x ∈ alphabet) {pattern : List (Option α)}
    {word : List α} (hk : k ≤ known pattern) (hfits : Fits pattern word)
    (hword : code word = true) : complete alphabet code pattern = some word := by
  have hmem := (mem_sections_candidates hall).mpr hfits
  cases hfind : complete alphabet code pattern with
  | none =>
      rw [complete, List.find?_eq_none] at hfind
      exact absurd hword (hfind word hmem)
  | some found =>
      have hfound : code found = true := List.find?_some hfind
      have hfits' := (mem_sections_candidates hall).mp (List.mem_of_find?_eq_some hfind)
      rw [hcode pattern found word hk hfits' hfits hfound hword]

/-! ### Columns -/

/-- Known rows that fit a column and rows to its right, taken apart. -/
theorem Fits.heads_tails {column : List α} {rest : List (List α)}
    (hlen : column.length = rest.length) {rows : List (Option (List α))}
    (h : Fits rows (List.zipWith List.cons column rest)) :
    Fits (heads rows) column ∧ Fits (tails rows) rest ∧
      known (heads rows) = known rows ∧ known (tails rows) = known rows := by
  induction column generalizing rest rows with
  | nil =>
      obtain rfl : rest = [] := List.length_eq_zero_iff.mp hlen.symm
      obtain rfl : rows = [] := List.length_eq_zero_iff.mp h.length_eq
      simp [heads, tails]
  | cons x column ih =>
      obtain ⟨row, rest, rfl⟩ := List.exists_cons_of_length_eq_add_one hlen.symm
      obtain ⟨o, rows, rfl⟩ := List.exists_cons_of_length_eq_add_one h.length_eq
      rw [List.zipWith_cons_cons, fits_cons_cons] at h
      obtain ⟨hheads, htails, hknown, hknown'⟩ := ih (by simpa using hlen) h.2
      simp only [heads, tails] at hheads htails hknown hknown'
      cases o with
      | none => simp [heads, tails, hheads, htails, known_cons, hknown, hknown']
      | some known =>
          obtain rfl := h.1 known rfl
          simp [heads, tails, hheads, htails, known_cons, hknown, hknown']

/-- Rows of no symbols that fit known rows. -/
theorem Fits.eq_map_nil {rows : List (Option (List α))} {word : List (List α)}
    (h : Fits rows word) (hnil : ∀ row ∈ word, row = []) : word = rows.map fun _ => [] := by
  rw [List.eq_replicate_of_mem hnil, List.map_const', h.length_eq]

/-- **Completion by columns**: known rows with `k` rows of a word are completed to it. -/
theorem completeColumns_eq {k : ℕ} {alphabet : List α} {code : List α → Bool}
    (hcode : DeterminedBy k code) (hall : ∀ x, x ∈ alphabet) {n : ℕ}
    {rows : List (Option (List α))} {word : List (List α)} (hk : k ≤ known rows)
    (hfits : Fits rows word) (hword : Interleaved code n word) :
    completeColumns alphabet code n rows = some word := by
  induction n generalizing rows word with
  | zero => rw [completeColumns, hfits.eq_map_nil hword]
  | succ n ih =>
      obtain ⟨column, rest, rfl, hlen, hcolumn, hrest⟩ := hword
      obtain ⟨hheads, htails, hknown, hknown'⟩ := hfits.heads_tails hlen
      rw [completeColumns, complete_eq hcode hall (hknown ▸ hk) hheads hcolumn,
        ih (hknown' ▸ hk) htails hrest]
      rfl

end ErasureCode
