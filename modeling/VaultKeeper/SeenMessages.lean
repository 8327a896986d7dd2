import Mathlib.Data.Finset.Card
import VaultKeeper.Gossip

/-!
# Seen Messages

`SeenMessages` of `p2p/src/gossip.rs` over whole runs: which numbers are still remembered, and
how many. When the set is full, half of the capacity is taken out of it before a new number is
put in, in the order in which the hash set is iterated over. This order is unspecified and may
differ from call to call, so every call has its own as an argument.

Nothing makes the numbers taken out the oldest ones, as the comment at the eviction has it, and
half of a capacity of one is nothing.

## Main results

* `remembersRecent_seenStep_iff`: when a call keeps the numbers that were marked recently.
* `remembers_recent_iff`: for whole runs.
* `remembers_of_oldestFirst`, `remembers_of_lt_four`: iterating from the oldest number would
  do, and so does a capacity below four.
* `seen_bounded_iff`: when the set stays within its capacity.
-/

namespace VaultKeeper

/-- A call of `check_and_mark`, with the order of an iteration over the set in it. -/
structure SeenCall where
  order : IterOrder
  seq : UInt64

/-- A set of seen messages with the numbers that it newly marked, in order. -/
structure SeenRun where
  messages : SeenMessages
  marked : List UInt64

def SeenRun.new (maxSize : ℕ) : SeenRun where
  messages := .new maxSize
  marked := []

/-- One call. -/
def seenStep (r : SeenRun) (call : SeenCall) : SeenRun :=
  match r.messages.checkAndMark call.order call.seq with
  | (true, messages) => { messages := messages, marked := r.marked ++ [call.seq] }
  | (false, messages) => { r with messages := messages }

/-! ### What a call does -/

/-- A number is not new when it is in the set. -/
theorem checkAndMark_fst_eq_false_iff {m : SeenMessages} {order : IterOrder} {seq : UInt64} :
    (m.checkAndMark order seq).1 = false ↔ seq ∈ m.seen := by
  rw [checkAndMark_fst, Bool.not_eq_false', SeenMessages.contains, decide_eq_true_eq]

/-- A number that is remembered changes nothing. -/
theorem seenStep_of_mem {r : SeenRun} {call : SeenCall} (h : call.seq ∈ r.messages.seen) :
    seenStep r call = r := by
  rw [seenStep, checkAndMark_of_mem h]

/-- Any other number is marked. -/
theorem seenStep_of_notMem {r : SeenRun} {call : SeenCall} (h : call.seq ∉ r.messages.seen) :
    seenStep r call =
      { messages :=
          { r.messages with seen := insert call.seq (r.messages.retained call.order) }
        marked := r.marked ++ [call.seq] } := by
  simp [seenStep, SeenMessages.checkAndMark, SeenMessages.contains, h]

@[simp] theorem seenStep_maxSize (r : SeenRun) (call : SeenCall) :
    (seenStep r call).messages.maxSize = r.messages.maxSize := by
  by_cases h : call.seq ∈ r.messages.seen
  · rw [seenStep_of_mem h]
  · rw [seenStep_of_notMem h]

/-- The number that was checked is remembered. -/
theorem mem_seenStep_self (r : SeenRun) (call : SeenCall) :
    call.seq ∈ (seenStep r call).messages.seen := by
  by_cases h : call.seq ∈ r.messages.seen
  · rwa [seenStep_of_mem h]
  · rw [seenStep_of_notMem h]
    exact Finset.mem_insert_self ..

/-- What stays of a full set is what the iteration does not yield first. -/
theorem mem_retained_iff {m : SeenMessages} {order : IterOrder} {x : UInt64} :
    x ∈ m.retained order ↔ x ∈ m.seen ∧
      (m.maxSize ≤ m.seen.card → x ∉ (order.list m.seen).take (m.maxSize / 2)) := by
  rw [SeenMessages.retained]
  split
  · next hfull =>
    have hnodup := order.nodup m.seen
    rw [← List.take_append_drop (m.maxSize / 2) (order.list m.seen),
      List.nodup_append'] at hnodup
    obtain ⟨-, -, hdisjoint⟩ := hnodup
    rw [List.mem_toFinset, ← order.mem_list m.seen x]
    constructor
    · exact fun hx => ⟨List.mem_of_mem_drop hx, fun _ htake => hdisjoint htake hx⟩
    · rintro ⟨hx, htake⟩
      rw [← List.take_append_drop (m.maxSize / 2) (order.list m.seen), List.mem_append] at hx
      exact hx.resolve_left (htake hfull)
  · next hroom => simp [hroom]

/-- An iteration yields as many numbers as there are. -/
theorem IterOrder.length_list (order : IterOrder) (s : Finset UInt64) :
    (order.list s).length = s.card := by
  rw [← List.toFinset_card_of_nodup (order.nodup s)]
  congr 1
  ext x
  rw [List.mem_toFinset, order.mem_list]

/-! ### Recent numbers -/

/-- The distinct numbers of a list that end with a new one. -/
theorem toFinset_concat (l : List UInt64) (x : UInt64) :
    (l ++ [x]).toFinset = insert x l.toFinset := by
  ext y
  simp

/-- Every number that was marked, and since then fewer than half of the capacity of distinct
other numbers, is known when it is checked. -/
def RemembersRecent (r : SeenRun) : Prop :=
  ∀ s before after, r.marked = before ++ s :: after →
    (after.toFinset.erase s).card < r.messages.maxSize / 2 →
      ∀ order, (r.messages.checkAndMark order s).1 = false

/-- When a new number is checked and the set is full, half of the capacity of distinct other
numbers, the new one among them, were marked since any of those that the iteration yields
first. -/
def SparesRecent (r : SeenRun) (call : SeenCall) : Prop :=
  call.seq ∉ r.messages.seen → r.messages.maxSize ≤ r.messages.seen.card →
    ∀ x ∈ (call.order.list r.messages.seen).take (r.messages.maxSize / 2),
      ∀ before after, r.marked = before ++ x :: after →
        r.messages.maxSize / 2 ≤ ((insert call.seq after.toFinset).erase x).card

/-- **The step**: recent numbers stay known exactly when the call spares them. -/
theorem remembersRecent_seenStep_iff {r : SeenRun} (hr : RemembersRecent r) (call : SeenCall) :
    RemembersRecent (seenStep r call) ↔ SparesRecent r call := by
  by_cases hknown : call.seq ∈ r.messages.seen
  · rw [seenStep_of_mem hknown]
    exact iff_of_true hr fun hnew => absurd hknown hnew
  · rw [seenStep_of_notMem hknown]
    constructor
    · intro hnext _ hfull x hx before after hsplit
      by_contra hfew
      have hold : x ∈ r.messages.seen :=
        (call.order.mem_list _ _).mp (List.mem_of_mem_take hx)
      have hrecent := hnext x before (after ++ [call.seq]) (by simp [hsplit])
        (by rw [toFinset_concat]; exact Nat.lt_of_not_le hfew) call.order
      rw [checkAndMark_fst_eq_false_iff, Finset.mem_insert] at hrecent
      rcases hrecent with rfl | hkept
      · exact hknown hold
      · exact (mem_retained_iff.mp hkept).2 hfull hx
    · intro hspares s before after hsplit hfew order
      rw [checkAndMark_fst_eq_false_iff, Finset.mem_insert]
      rcases Runs.concat_eq_append_cons_iff.mp hsplit with
        ⟨-, -, hlast⟩ | ⟨after, rfl, hbefore⟩
      -- the number that was checked is the last one that was marked
      · exact Or.inl hlast
      · rw [toFinset_concat] at hfew
        have hearlier : (after.toFinset.erase s).card < r.messages.maxSize / 2 :=
          (Finset.card_le_card
            (Finset.erase_subset_erase s (Finset.subset_insert ..))).trans_lt hfew
        have hold : s ∈ r.messages.seen :=
          checkAndMark_fst_eq_false_iff.mp (hr s before after hbefore hearlier order)
        refine Or.inr (mem_retained_iff.mpr ⟨hold, fun hfull htake => ?_⟩)
        exact absurd (hspares hknown hfull s htake before after hbefore) hfew.not_ge

theorem remembersRecent_new (maxSize : ℕ) : RemembersRecent (.new maxSize) := by
  intro s before after hsplit
  simp [SeenRun.new] at hsplit

/-- Every call of a run keeps the recent numbers known exactly when every call spares them. -/
theorem remembers_visits_iff (maxSize : ℕ) (calls : List SeenCall) :
    (∀ v ∈ Runs.visits seenStep (.new maxSize) calls, RemembersRecent (seenStep v.1 v.2)) ↔
      ∀ v ∈ Runs.visits seenStep (.new maxSize) calls, SparesRecent v.1 v.2 :=
  Runs.visits_iff seenStep (I := RemembersRecent)
    (P := fun r call => RemembersRecent (seenStep r call))
    (fun _ call hr => remembersRecent_seenStep_iff hr call)
    (fun _ call hr hspares => (remembersRecent_seenStep_iff hr call).mpr hspares)
    (remembersRecent_new maxSize)

/-- **Recent messages**: for every capacity, run and orders of iteration, at every point of the
run the numbers that were marked recently are known exactly when every call that takes numbers
out of a full set spares them. -/
theorem remembers_recent_iff (maxSize : ℕ) (calls : List SeenCall) :
    (∀ earlier, earlier <+: calls → RemembersRecent (earlier.foldl seenStep (.new maxSize))) ↔
      ∀ v ∈ Runs.visits seenStep (.new maxSize) calls, SparesRecent v.1 v.2 := by
  rw [Runs.forall_prefix_iff, and_iff_right (remembersRecent_new maxSize)]
  exact remembers_visits_iff maxSize calls

/-- The iteration yields the numbers from the oldest: after a number only such that were marked
since. -/
def OldestFirst (r : SeenRun) (order : IterOrder) : Prop :=
  (order.list r.messages.seen).Pairwise fun x y =>
    ∀ before after, r.marked = before ++ x :: after → y ∈ after

/-- The numbers that are yielded after `x` make up for half of the capacity. -/
theorem sparesRecent_of_oldestFirst {r : SeenRun} {call : SeenCall}
    (holdest : OldestFirst r call.order) : SparesRecent r call := by
  intro hnew hfull x hx before after hsplit
  obtain ⟨first, rest, htake⟩ := List.append_of_mem hx
  set later := rest ++ (call.order.list r.messages.seen).drop (r.messages.maxSize / 2) with hlater
  have hlist : call.order.list r.messages.seen = first ++ x :: later := by
    rw [← List.take_append_drop (r.messages.maxSize / 2) (call.order.list r.messages.seen), htake,
      hlater, List.append_assoc, List.cons_append]
  have hfirst : first.length < r.messages.maxSize / 2 := by
    have hlen := congrArg List.length htake
    simp only [List.length_take, List.length_append, List.length_cons] at hlen
    omega
  have hcard := call.order.length_list r.messages.seen
  have hnodup := call.order.nodup r.messages.seen
  rw [OldestFirst, hlist, List.pairwise_append, List.pairwise_cons] at holdest
  rw [hlist, List.length_append, List.length_cons] at hcard
  rw [hlist, List.nodup_append', List.nodup_cons] at hnodup
  obtain ⟨-, ⟨hx, hdistinct⟩, -⟩ := hnodup
  have hsub : later.toFinset ⊆ (insert call.seq after.toFinset).erase x := by
    intro y hy
    rw [List.mem_toFinset] at hy
    refine Finset.mem_erase.mpr ⟨?_, ?_⟩
    · rintro rfl
      exact hx hy
    · simp [holdest.2.1.1 y hy before after hsplit]
  have hle := Finset.card_le_card hsub
  rw [List.toFinset_card_of_nodup hdistinct] at hle
  omega

/-- With a capacity below four the number that is checked alone makes up for its half. -/
theorem sparesRecent_of_lt_four {r : SeenRun} (hsmall : r.messages.maxSize < 4)
    (call : SeenCall) : SparesRecent r call := by
  intro hnew _ x hx before after _
  have hold : x ∈ r.messages.seen := (call.order.mem_list _ _).mp (List.mem_of_mem_take hx)
  have hne : call.seq ≠ x := by
    rintro rfl
    exact hnew hold
  have hpos : 0 < ((insert call.seq after.toFinset).erase x).card :=
    Finset.card_pos.mpr ⟨call.seq, by simp [hne]⟩
  omega

/-- Iterating from the oldest number, every run remembers the recent ones. -/
theorem remembers_of_oldestFirst (maxSize : ℕ) {calls : List SeenCall}
    (holdest : ∀ v ∈ Runs.visits seenStep (.new maxSize) calls, OldestFirst v.1 v.2.order) :
    ∀ v ∈ Runs.visits seenStep (.new maxSize) calls, RemembersRecent (seenStep v.1 v.2) :=
  (remembers_visits_iff maxSize calls).mpr fun v hv => sparesRecent_of_oldestFirst (holdest v hv)

/-- With a capacity below four every run remembers the recent numbers, in all orders. -/
theorem remembers_of_lt_four {maxSize : ℕ} (hsmall : maxSize < 4) (calls : List SeenCall) :
    ∀ v ∈ Runs.visits seenStep (.new maxSize) calls, RemembersRecent (seenStep v.1 v.2) := by
  have hkept : ∀ v ∈ Runs.visits seenStep (.new maxSize) calls,
      v.1.messages.maxSize = maxSize ∧ (seenStep v.1 v.2).messages.maxSize = maxSize :=
    Runs.invariant seenStep (I := fun r => r.messages.maxSize = maxSize) (G := fun _ _ => True)
      (fun r call hr _ => (seenStep_maxSize r call).trans hr) rfl fun _ _ => trivial
  refine (remembers_visits_iff maxSize calls).mpr fun v hv => ?_
  exact sparesRecent_of_lt_four ((hkept v hv).1.trans_lt hsmall) v.2

/-- Four numbers fill the set. -/
def filling : List SeenCall :=
  [4, 3, 2, 1].map (SeenCall.mk .ascending)

/-- When a fifth is checked, the last of the four is taken out, although no other was marked
since. -/
theorem recent_forgotten :
    ¬ RemembersRecent ((filling ++ [SeenCall.mk .ascending 5]).foldl seenStep (.new 4)) := by
  intro h
  have hknown := h 1 [4, 3, 2] [5] (by decide +kernel) (by decide) .ascending
  have hfilled : (filling.foldl seenStep (.new 4)).messages.seen = insert 1 {2, 3, 4} := by
    decide +kernel
  have hleast : ∀ b ∈ ({2, 3, 4} : Finset UInt64), 1 ≤ b := by
    simp only [Finset.mem_insert, Finset.mem_singleton]
    rintro b (rfl | rfl | rfl) <;> decide
  have hfirst : IterOrder.ascending.list (insert 1 {2, 3, 4}) =
      1 :: IterOrder.ascending.list {2, 3, 4} :=
    Finset.sort_insert (· ≤ ·) hleast (by decide)
  rw [List.foldl_append, List.foldl_cons, List.foldl_nil,
    seenStep_of_notMem (by rw [hfilled]; decide), checkAndMark_fst_eq_false_iff,
    Finset.mem_insert] at hknown
  have hkept := (mem_retained_iff.mp (hknown.resolve_left (by decide))).2
  rw [hfilled, hfirst] at hkept
  exact hkept (by decide) (List.mem_cons_self ..)

/-! ### The size of the set -/

/-- Room is made for the number that is put in. -/
theorem card_retained_lt {m : SeenMessages} (hsize : 2 ≤ m.maxSize)
    (hcard : m.seen.card ≤ m.maxSize) (order : IterOrder) :
    (m.retained order).card < m.maxSize := by
  rw [SeenMessages.retained]
  split
  · next hfull =>
    have hdistinct : ((order.list m.seen).drop (m.maxSize / 2)).Nodup :=
      (order.nodup m.seen).sublist (List.drop_sublist ..)
    rw [List.toFinset_card_of_nodup hdistinct, List.length_drop, order.length_list]
    omega
  · next hroom => exact Nat.lt_of_not_le hroom

/-- **The step**: a set with a capacity of two or more stays within it. -/
theorem card_seenStep_le {r : SeenRun} (hsize : 2 ≤ r.messages.maxSize)
    (hcard : r.messages.seen.card ≤ r.messages.maxSize) (call : SeenCall) :
    (seenStep r call).messages.seen.card ≤ r.messages.maxSize := by
  by_cases hknown : call.seq ∈ r.messages.seen
  · rwa [seenStep_of_mem hknown]
  · rw [seenStep_of_notMem hknown]
    exact (Finset.card_insert_le ..).trans (card_retained_lt hsize hcard call.order)

/-- Nothing is ever taken out of a set with a smaller capacity. -/
theorem seen_seenStep_of_lt_two {r : SeenRun} (hsize : r.messages.maxSize < 2)
    (call : SeenCall) :
    (seenStep r call).messages.seen = insert call.seq r.messages.seen := by
  by_cases hknown : call.seq ∈ r.messages.seen
  · rw [seenStep_of_mem hknown, Finset.insert_eq_of_mem hknown]
  · have hall : r.messages.retained call.order = r.messages.seen := by
      ext x
      rw [mem_retained_iff, Nat.div_eq_of_lt hsize, List.take_zero]
      simp
    rw [seenStep_of_notMem hknown, hall]

theorem maxSize_foldl (maxSize : ℕ) (calls : List SeenCall) :
    (calls.foldl seenStep (.new maxSize)).messages.maxSize = maxSize :=
  Runs.invariant_foldl seenStep (I := fun r => r.messages.maxSize = maxSize)
    (G := fun _ _ => True) (fun r call hr _ => (seenStep_maxSize r call).trans hr)
    rfl fun _ _ => trivial

theorem card_foldl_le {maxSize : ℕ} (hsize : 2 ≤ maxSize) (calls : List SeenCall) :
    (calls.foldl seenStep (.new maxSize)).messages.seen.card ≤ maxSize := by
  have hrun : (calls.foldl seenStep (.new maxSize)).messages.maxSize = maxSize ∧
      (calls.foldl seenStep (.new maxSize)).messages.seen.card ≤ maxSize := by
    refine Runs.invariant_foldl seenStep (G := fun _ _ => True)
      (I := fun r => r.messages.maxSize = maxSize ∧ r.messages.seen.card ≤ maxSize)
      (fun r call hr _ => ?_) ⟨rfl, Nat.zero_le _⟩ fun _ _ => trivial
    obtain ⟨rfl, hcard⟩ := hr
    exact ⟨seenStep_maxSize r call, card_seenStep_le hsize hcard call⟩
  exact hrun.2

/-- A set with a capacity below two has every number that was checked. -/
theorem seen_foldl_of_lt_two {maxSize : ℕ} (hsize : maxSize < 2) (calls : List SeenCall) :
    (calls.foldl seenStep (.new maxSize)).messages.seen =
      (calls.map SeenCall.seq).toFinset := by
  induction calls using List.reverseRecOn with
  | nil => rfl
  | append_singleton calls call ih =>
      have hsmall := (maxSize_foldl maxSize calls).trans_lt hsize
      rw [List.foldl_append, List.foldl_cons, List.foldl_nil, seen_seenStep_of_lt_two hsmall, ih,
        List.map_append, List.map_singleton, toFinset_concat]

/-- **A bounded set**: for every capacity, run and orders of iteration, at every point of the
run the set is within its capacity and has the number that was just checked, exactly when the
capacity is two or more or no more distinct numbers are checked than it. -/
theorem seen_bounded_iff (maxSize : ℕ) (calls : List SeenCall) :
    (∀ earlier, earlier <+: calls →
      let m := (earlier.foldl seenStep (.new maxSize)).messages
      m.seen.card ≤ maxSize ∧ ∀ call ∈ earlier.getLast?, m.contains call.seq = true) ↔
      2 ≤ maxSize ∨ (calls.map SeenCall.seq).toFinset.card ≤ maxSize := by
  constructor
  · intro hbounded
    rcases Nat.lt_or_ge maxSize 2 with hsmall | hlarge
    · have hend := (hbounded calls (List.prefix_refl calls)).1
      rw [seen_foldl_of_lt_two hsmall] at hend
      exact Or.inr hend
    · exact Or.inl hlarge
  · intro hsize earlier hearlier m
    constructor
    · rcases Nat.lt_or_ge maxSize 2 with hsmall | hlarge
      · have hfew := hsize.resolve_left hsmall.not_ge
        have hsub : (earlier.map SeenCall.seq).toFinset ⊆
            (calls.map SeenCall.seq).toFinset := by
          intro x hx
          rw [List.mem_toFinset] at hx ⊢
          exact (hearlier.map SeenCall.seq).subset hx
        rw [seen_foldl_of_lt_two hsmall]
        exact (Finset.card_le_card hsub).trans hfew
      · exact card_foldl_le hlarge earlier
    · intro call hlast
      obtain ⟨before, rfl⟩ := List.getLast?_eq_some_iff.mp hlast
      have hself := mem_seenStep_self (before.foldl seenStep (.new maxSize)) call
      simpa [m, SeenMessages.contains] using hself

/-- A set for one number has both of two numbers. -/
theorem seen_unbounded :
    ¬ ∀ earlier, earlier <+: [1, 2].map (SeenCall.mk .ascending) →
      let m := (earlier.foldl seenStep (.new 1)).messages
      m.seen.card ≤ 1 ∧ ∀ call ∈ earlier.getLast?, m.contains call.seq = true := by
  intro h
  have hend := (h _ (List.prefix_refl _)).1
  rw [seen_foldl_of_lt_two Nat.one_lt_two] at hend
  exact absurd hend (by decide)

end VaultKeeper
