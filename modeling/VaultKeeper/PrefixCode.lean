import Mathlib.Data.List.Basic

/-!
# Prefix Codes

A code writes each symbol as a list, and the lists are put one after another. When the
first symbol can be read off whatever follows it, a message ended by a stop symbol that
begins no code word can be read off whatever follows it as well.

## Main results

* `IsPrefixCode.of_reader`: a reader of the first symbol makes a prefix code.
* `IsPrefixCode.flatMap_stop`: messages ended by a stop symbol are a prefix code.
* `readMessage_append`: and a reader of the first symbol reads such messages.
-/

namespace PrefixCode

variable {α β : Type*} {code : α → List β}

/-- The first symbol is determined, whatever follows. -/
def IsPrefixCode (code : α → List β) : Prop :=
  ∀ a b x y, code a ++ x = code b ++ y → a = b

/-- What comes before a symbol and does not contain it is told apart together with what
follows. -/
theorem append_stop_inj {stop : β} {l m x y : List β} (hl : stop ∉ l) (hm : stop ∉ m)
    (heq : l ++ stop :: x = m ++ stop :: y) : l = m ∧ x = y := by
  induction l generalizing m with
  | nil =>
      cases m with
      | nil => exact ⟨rfl, (List.cons.inj heq).2⟩
      | cons b m => exact absurd ((List.cons.inj heq).1 ▸ List.mem_cons_self ..) hm
  | cons a l ih =>
      cases m with
      | nil => exact absurd ((List.cons.inj heq).1 ▸ List.mem_cons_self ..) hl
      | cons b m =>
          obtain ⟨rfl, hrest⟩ := List.cons.inj heq
          obtain ⟨rfl, hxy⟩ := ih (List.not_mem_of_not_mem_cons hl)
            (List.not_mem_of_not_mem_cons hm) hrest
          exact ⟨rfl, hxy⟩

/-- What comes before a stop symbol is told apart as well when as many stop symbols follow
it. -/
theorem append_stop_inj_of_count [DecidableEq β] {stop : β} {l m x y : List β}
    (hcount : x.count stop = y.count stop) (heq : l ++ stop :: x = m ++ stop :: y) :
    l = m ∧ x = y := by
  -- what one text has before its stop symbol and the other behind it has no stop symbol
  have hshift : ∀ {rest x y : List β}, x.count stop = y.count stop →
      stop :: x = rest ++ stop :: y → rest = [] ∧ x = y := by
    intro rest x y hcount heq
    cases rest with
    | nil => exact ⟨rfl, (List.cons.inj heq).2⟩
    | cons b rest =>
        rw [List.cons_append, List.cons.injEq] at heq
        rw [heq.2, List.count_append, List.count_cons_self] at hcount
        omega
  rcases List.append_eq_append_iff.mp heq with ⟨rest, rfl, hrest⟩ | ⟨rest, rfl, hrest⟩
  · obtain ⟨rfl, hxy⟩ := hshift hcount hrest
    exact ⟨(List.append_nil l).symm, hxy⟩
  · obtain ⟨rfl, hyx⟩ := hshift hcount.symm hrest
    exact ⟨List.append_nil m, hyx.symm⟩

/-- Code words are told apart together with what follows them. -/
theorem IsPrefixCode.append_inj (h : IsPrefixCode code) {a b : α} {x y : List β}
    (heq : code a ++ x = code b ++ y) : a = b ∧ x = y := by
  obtain rfl := h a b x y heq
  exact ⟨rfl, List.append_cancel_left heq⟩

/-- A reader of the first symbol makes a prefix code. -/
theorem IsPrefixCode.of_reader (read : List β → Option α)
    (hread : ∀ a x, read (code a ++ x) = some a) : IsPrefixCode code := by
  intro a b x y heq
  have hab := hread a x
  rw [heq, hread b y] at hab
  exact (Option.some.inj hab).symm

/-- **Messages with a stop symbol**: two messages in a prefix code, each ended by a
symbol that begins no code word, are told apart together with what follows them. -/
theorem IsPrefixCode.flatMap_stop (h : IsPrefixCode code) {stop : β}
    (hstop : ∀ a x y, code a ++ x ≠ stop :: y) {l m : List α} {x y : List β}
    (heq : l.flatMap code ++ stop :: x = m.flatMap code ++ stop :: y) : l = m ∧ x = y := by
  induction l generalizing m with
  | nil =>
      cases m with
      | nil => simpa using heq
      | cons b m =>
          rw [List.flatMap_cons, List.append_assoc] at heq
          exact absurd heq.symm (hstop b _ _)
  | cons a l ih =>
      cases m with
      | nil =>
          rw [List.flatMap_cons, List.append_assoc] at heq
          exact absurd heq (hstop a _ _)
      | cons b m =>
          rw [List.flatMap_cons, List.flatMap_cons, List.append_assoc,
            List.append_assoc] at heq
          obtain ⟨rfl, hrest⟩ := h.append_inj heq
          obtain ⟨rfl, hxy⟩ := ih hrest
          exact ⟨rfl, hxy⟩

/-! ### Reading messages -/

/-- Read a message symbol by symbol up to its stop symbol, with what follows it. -/
def readMessage [DecidableEq β] (read : List β → Option α) (code : α → List β) (stop : β) :
    ℕ → List β → Option (List α × List β)
  | 0, _ => none
  | n + 1, l =>
      if l.head? = some stop then some ([], l.tail)
      else
        (read l).bind fun a =>
          (readMessage read code stop n (l.drop (code a).length)).map fun r => (a :: r.1, r.2)

variable {stop : β} (hstop : ∀ a x y, code a ++ x ≠ stop :: y)
include hstop

/-- A message has no more symbols than its text. -/
theorem length_le_length_flatMap (m : List α) : m.length ≤ (m.flatMap code).length := by
  induction m with
  | nil => simp
  | cons a m ih =>
      have hne : code a ≠ [] := fun h => hstop a [stop] [] (by rw [h, List.nil_append])
      have hpos := List.length_pos_iff.mpr hne
      rw [List.length_cons, List.flatMap_cons, List.length_append]
      omega

/-- **Messages are read back** with what follows them, by a reader of the first symbol. -/
theorem readMessage_append [DecidableEq β] {read : List β → Option α}
    (hread : ∀ a x, read (code a ++ x) = some a) (m : List α) (x : List β) {n : ℕ}
    (hn : m.length < n) :
    readMessage read code stop n (m.flatMap code ++ stop :: x) = some (m, x) := by
  induction n generalizing m with
  | zero => cases hn
  | succ n ih =>
      cases m with
      | nil => simp [readMessage]
      | cons a m =>
          have hhead : (code a ++ (m.flatMap code ++ stop :: x)).head? ≠ some stop := by
            intro h
            rw [List.head?_eq_some_iff] at h
            obtain ⟨y, hy⟩ := h
            exact hstop a _ y hy
          rw [List.flatMap_cons, List.append_assoc, readMessage, if_neg hhead, hread,
            Option.bind_some, List.drop_left, ih m (by simpa using hn), Option.map_some]

end PrefixCode
