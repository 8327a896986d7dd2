import Mathlib.Algebra.BigOperators.Intervals
import Mathlib.Algebra.Order.BigOperators.Group.Finset
import Mathlib.Data.Char
import Mathlib.Data.String.Basic
import Mathlib.Tactic.IntervalCases

/-!
# Numbers in Parts, and Their Texts in Order

A number is often given in parts, the higher ones first: a date in years, months and days, a
decimal in digits. Two such numbers compare like their first different parts. This module has
the two rules for it, one for parts of a fixed size and one for parts whose size depends on
the higher ones, and carries the order over to decimal digits of fixed width.

## Main results

* `mul_add_lt_iff`: parts of a fixed size.
* `sum_add_lt_iff`: parts of varying sizes, counted from the sizes before them.
* `fixedDigits_append_lt_iff`: texts that begin with digits of one width.
* `fixedDigits_append_lt_of_width`, `lt_fixedDigits_append_of_width`: texts of which one goes
  on with more digits where the other goes on with a character before all digits.
-/

namespace DigitOrder

/-! ### Parts of a number -/

/-- Numbers of `k`-sized parts compare like their higher parts, and then like the lower. -/
theorem mul_add_lt_iff {k a a' b b' : ℕ} (hb : b < k) (hb' : b' < k) :
    k * a + b < k * a' + b' ↔ a < a' ∨ a = a' ∧ b < b' := by
  rcases lt_trichotomy a a' with h | rfl | h
  · have hle : k * (a + 1) ≤ k * a' := Nat.mul_le_mul_left k h
    rw [mul_add] at hle
    omega
  · omega
  · have hle : k * (a' + 1) ≤ k * a := Nat.mul_le_mul_left k h
    rw [mul_add] at hle
    omega

/-- The same for parts of sizes `size 0`, `size 1`, and so on. -/
theorem sum_add_lt_iff (size : ℕ → ℕ) {n n' b b' : ℕ} (hb : b < size n) (hb' : b' < size n') :
    ∑ i ∈ Finset.range n, size i + b < ∑ i ∈ Finset.range n', size i + b' ↔
      n < n' ∨ n = n' ∧ b < b' := by
  have hstep : ∀ {i j : ℕ}, i < j →
      ∑ k ∈ Finset.range i, size k + size i ≤ ∑ k ∈ Finset.range j, size k := by
    intro i j hij
    rw [← Finset.sum_range_succ]
    exact Finset.sum_le_sum_of_subset (Finset.range_subset_range.mpr hij)
  rcases lt_trichotomy n n' with h | rfl | h
  · have := hstep h
    omega
  · omega
  · have := hstep h
    omega

/-! ### Digits -/

/-- The character of a digit. -/
def digitChar (d : ℕ) : Char :=
  Char.ofNat (48 + d)

/-- The digits of a number below `10 ^ width`. -/
def fixedDigits : (width : ℕ) → ℕ → List Char
  | 0, _ => []
  | width + 1, n => digitChar (n / 10 ^ width) :: fixedDigits width (n % 10 ^ width)

theorem digitChar_lt_iff {a b : ℕ} (ha : a < 10) (hb : b < 10) :
    digitChar a < digitChar b ↔ a < b := by
  interval_cases a <;> interval_cases b <;> decide

theorem digitChar_inj {a b : ℕ} (ha : a < 10) (hb : b < 10) :
    digitChar a = digitChar b ↔ a = b := by
  interval_cases a <;> interval_cases b <;> decide

theorem lt_digitChar {c : Char} {d : ℕ} (hc : c < '0') (hd : d < 10) : c < digitChar d := by
  refine lt_of_lt_of_le hc (not_lt.mp ?_)
  have hzero : digitChar 0 = '0' := rfl
  rw [← hzero, digitChar_lt_iff hd (by omega)]
  omega

/-- The leading digit and the digits after it. -/
theorem div_lt_ten {width n : ℕ} (h : n < 10 ^ (width + 1)) : n / 10 ^ width < 10 :=
  Nat.div_lt_of_lt_mul (by rwa [← pow_succ])

/-- A character that is no digit is not among the digits. -/
theorem notMem_fixedDigits {c : Char} (hc : ∀ d < 10, digitChar d ≠ c) {width n : ℕ}
    (hn : n < 10 ^ width) : c ∉ fixedDigits width n := by
  induction width generalizing n with
  | zero => exact List.not_mem_nil
  | succ width ih =>
      rw [fixedDigits, List.mem_cons, not_or]
      exact ⟨(hc _ (div_lt_ten hn)).symm, ih (Nat.mod_lt n (by positivity))⟩

/-- **Texts of one width**: they compare like their numbers, and then like what follows. -/
theorem fixedDigits_append_lt_iff {width n m : ℕ} (hn : n < 10 ^ width) (hm : m < 10 ^ width)
    (r r' : List Char) :
    fixedDigits width n ++ r < fixedDigits width m ++ r' ↔ n < m ∨ n = m ∧ r < r' := by
  induction width generalizing n m with
  | zero =>
      obtain rfl : n = 0 := by omega
      obtain rfl : m = 0 := by omega
      simp [fixedDigits]
  | succ width ih =>
      have hpos : 0 < 10 ^ width := by positivity
      have hparts : 10 ^ width * (n / 10 ^ width) + n % 10 ^ width <
            10 ^ width * (m / 10 ^ width) + m % 10 ^ width ↔
          n / 10 ^ width < m / 10 ^ width ∨
            n / 10 ^ width = m / 10 ^ width ∧ n % 10 ^ width < m % 10 ^ width :=
        mul_add_lt_iff (Nat.mod_lt n hpos) (Nat.mod_lt m hpos)
      have heq : n = m ↔ n / 10 ^ width = m / 10 ^ width ∧ n % 10 ^ width = m % 10 ^ width := by
        constructor
        · rintro rfl
          exact ⟨rfl, rfl⟩
        · rintro ⟨hdiv, hmod⟩
          rw [← Nat.div_add_mod n (10 ^ width), hdiv, hmod, Nat.div_add_mod]
      rw [Nat.div_add_mod, Nat.div_add_mod] at hparts
      rw [fixedDigits, fixedDigits, List.cons_append, List.cons_append, List.cons_lt_cons_iff,
        digitChar_lt_iff (div_lt_ten hn) (div_lt_ten hm),
        digitChar_inj (div_lt_ten hn) (div_lt_ten hm),
        ih (Nat.mod_lt n hpos) (Nat.mod_lt m hpos), hparts, heq, and_or_left, or_assoc, and_assoc]

/-- The first digits of a number are those of its quotient, the last ones its remainder's. -/
theorem fixedDigits_add (width more : ℕ) {n : ℕ} (h : n < 10 ^ (width + more)) :
    fixedDigits (width + more) n =
      fixedDigits width (n / 10 ^ more) ++ fixedDigits more (n % 10 ^ more) := by
  induction width generalizing n with
  | zero =>
      rw [Nat.zero_add] at h ⊢
      rw [Nat.mod_eq_of_lt h]
      rfl
  | succ width ih =>
      have hpos : 0 < 10 ^ (width + more) := by positivity
      have hdiv : n % 10 ^ (width + more) / 10 ^ more = n / 10 ^ more % 10 ^ width := by
        rw [Nat.add_comm, pow_add, Nat.mod_mul_right_div_self]
      have hmod : n % 10 ^ (width + more) % 10 ^ more = n % 10 ^ more :=
        Nat.mod_mod_of_dvd n (pow_dvd_pow 10 (Nat.le_add_left more width))
      rw [Nat.add_right_comm, fixedDigits, ih (Nat.mod_lt n hpos), hdiv, hmod, fixedDigits,
        Nat.div_div_eq_div_mul, ← pow_add, Nat.add_comm more, List.cons_append]

/-- A character before all digits ends a text that is less than one with digits there. -/
theorem cons_lt_fixedDigits {c : Char} (hc : c < '0') {width n : ℕ} (hwidth : 0 < width)
    (h : n < 10 ^ width) (r r' : List Char) : c :: r < fixedDigits width n ++ r' := by
  obtain ⟨width, rfl⟩ : ∃ k, width = k + 1 := ⟨width - 1, by omega⟩
  rw [fixedDigits, List.cons_append, List.cons_lt_cons_iff]
  exact Or.inl (lt_digitChar hc (div_lt_ten h))

section Widths

variable {c : Char} (hc : c < '0') {width more n m : ℕ} (hmore : 0 < more) (hn : n < 10 ^ width)
  (hm : m < 10 ^ (width + more)) (r r' : List Char)
include hc hmore hn hm

/-- **Texts of two widths**, the shorter one first: it is less when its number is no more
than what the longer one begins with. -/
theorem fixedDigits_append_lt_of_width :
    fixedDigits width n ++ c :: r < fixedDigits (width + more) m ++ r' ↔ n ≤ m / 10 ^ more := by
  have hpos : 0 < 10 ^ more := by positivity
  have hdiv : m / 10 ^ more < 10 ^ width :=
    Nat.div_lt_of_lt_mul (by rwa [← pow_add, Nat.add_comm])
  rw [fixedDigits_add width more hm, List.append_assoc, fixedDigits_append_lt_iff hn hdiv]
  have htail := cons_lt_fixedDigits hc hmore (Nat.mod_lt m hpos) r r'
  simp only [htail, and_true]
  omega

/-- And the longer one first. -/
theorem lt_fixedDigits_append_of_width :
    fixedDigits (width + more) m ++ r' < fixedDigits width n ++ c :: r ↔ m / 10 ^ more < n := by
  have hpos : 0 < 10 ^ more := by positivity
  have hdiv : m / 10 ^ more < 10 ^ width :=
    Nat.div_lt_of_lt_mul (by rwa [← pow_add, Nat.add_comm])
  rw [fixedDigits_add width more hm, List.append_assoc, fixedDigits_append_lt_iff hdiv hn]
  have htail := (cons_lt_fixedDigits hc hmore (Nat.mod_lt m hpos) r r').asymm
  simp only [htail, and_false, or_false]

end Widths

end DigitOrder
