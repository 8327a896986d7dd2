import Mathlib.Data.List.Induction

/-!
# Runs of a State Machine

The run of a deterministic machine `step : σ → ε → σ` over a list of events. `visits`
lists the state before each event together with the event, so that a statement about
every step of a run is a statement about the members of a list.

## Main results

* `invariant`: a property of states that holds at the start and that every step meeting
  a side condition keeps holds before and after each step.
* `invariant_foldl`: and at the end.
* `history`: a relation between the events so far and the state, in the same way.
* `visits_iff`: two properties of steps that agree as long as an invariant holds, and
  that keep the invariant where they hold, hold of all steps of the same runs.
* `foldl_iff`: a property of states that a step keeps exactly when it meets a condition
  holds at the end of the runs whose steps all meet it.
* `forall_prefix_iff`: what holds at every point of a run holds at the start and after each
  step.
* `prefix_iff`: what no step changes is the same at every point of a run.
* `concat_eq_append_cons_iff`: an event of a history is its last one or one before.
-/

namespace Runs

variable {σ ε : Type*} (step : σ → ε → σ)

/-- The state before each event of a run, with the event. -/
def visits : σ → List ε → List (σ × ε)
  | _, [] => []
  | s, e :: es => (s, e) :: visits (step s e) es

@[simp] theorem visits_nil (s : σ) : visits step s [] = [] := rfl

@[simp] theorem visits_cons (s : σ) (e : ε) (es : List ε) :
    visits step s (e :: es) = (s, e) :: visits step (step s e) es := rfl

/-- The events of the steps are the events of the run. -/
theorem mem_of_mem_visits {s : σ} {es : List ε} {v : σ × ε} (h : v ∈ visits step s es) :
    v.2 ∈ es := by
  induction es generalizing s with
  | nil => simp at h
  | cons e es ih =>
      rw [visits_cons, List.mem_cons] at h
      rcases h with rfl | h
      · exact List.mem_cons_self ..
      · exact List.mem_cons_of_mem _ (ih h)

/-- The last step of a run starts in the state that the events before it end in. -/
theorem visits_concat (s : σ) (es : List ε) (e : ε) :
    visits step s (es ++ [e]) = visits step s es ++ [(es.foldl step s, e)] := by
  induction es generalizing s with
  | nil => rfl
  | cons e' es ih =>
      rw [List.cons_append, visits_cons, ih, visits_cons, List.foldl_cons, List.cons_append]

theorem mem_visits_concat (s : σ) (es : List ε) (e : ε) :
    (es.foldl step s, e) ∈ visits step s (es ++ [e]) := by
  rw [visits_concat]
  exact List.mem_append_right _ (List.mem_singleton_self _)

/-- **The invariant rule**: a property that holds at the start, and that every step
meeting its side condition keeps, holds before and after every step of a run whose steps
all meet the condition. -/
theorem invariant {I : σ → Prop} {G : σ → ε → Prop}
    (hstep : ∀ s e, I s → G s e → I (step s e)) {s : σ} {es : List ε} (hs : I s)
    (hrun : ∀ v ∈ visits step s es, G v.1 v.2) :
    ∀ v ∈ visits step s es, I v.1 ∧ I (step v.1 v.2) := by
  induction es generalizing s with
  | nil => simp
  | cons e es ih =>
      have hnext : I (step s e) := hstep s e hs (hrun (s, e) (by simp))
      intro v hv
      rw [visits_cons, List.mem_cons] at hv
      rcases hv with rfl | hv
      · exact ⟨hs, hnext⟩
      · exact ih hnext (fun w hw => hrun w (by simp [hw])) v hv

/-- The invariant rule for the state a run ends in. -/
theorem invariant_foldl {I : σ → Prop} {G : σ → ε → Prop}
    (hstep : ∀ s e, I s → G s e → I (step s e)) {s : σ} {es : List ε} (hs : I s)
    (hrun : ∀ v ∈ visits step s es, G v.1 v.2) : I (es.foldl step s) := by
  induction es generalizing s with
  | nil => exact hs
  | cons e es ih =>
      rw [visits_cons, List.forall_mem_cons] at hrun
      exact ih (hstep s e hs hrun.1) hrun.2

/-- **The history rule**: a relation between the events so far and the state that holds at
the start, and that every step meeting its side condition keeps when its event is added to
the history, holds after every run whose steps all meet the condition. -/
theorem history {I : List ε → σ → Prop} {G : σ → ε → Prop}
    (hstep : ∀ es s e, I es s → G s e → I (es ++ [e]) (step s e)) {s : σ} (hs : I [] s)
    {es : List ε} (hrun : ∀ v ∈ visits step s es, G v.1 v.2) : I es (es.foldl step s) := by
  induction es using List.reverseRecOn with
  | nil => exact hs
  | append_singleton es e ih =>
      rw [visits_concat, List.forall_mem_append, List.forall_mem_singleton] at hrun
      rw [List.foldl_append]
      exact hstep es _ e (ih hrun.1) hrun.2

/-- **The agreement rule**: when `P` and `G` agree on the steps from states with the
invariant, and steps with `G` keep the invariant, all steps of a run have `P` exactly
when all have `G`. -/
theorem visits_iff {I : σ → Prop} {P G : σ → ε → Prop}
    (hiff : ∀ s e, I s → (P s e ↔ G s e)) (hstep : ∀ s e, I s → G s e → I (step s e))
    {s : σ} {es : List ε} (hs : I s) :
    (∀ v ∈ visits step s es, P v.1 v.2) ↔ ∀ v ∈ visits step s es, G v.1 v.2 := by
  induction es generalizing s with
  | nil => simp
  | cons e es ih =>
      simp only [visits_cons, List.forall_mem_cons]
      rw [hiff s e hs]
      exact and_congr_right fun hg => ih (hstep s e hs hg)

/-- **The accumulation rule**: when a step ends in a state with `P` exactly when it starts
in one and meets its condition, a run ends in a state with `P` exactly when it starts in
one and all its steps meet the condition. -/
theorem foldl_iff {I P : σ → Prop} {G : σ → ε → Prop} (hstep : ∀ s e, I s → I (step s e))
    (hiff : ∀ s e, I s → (P (step s e) ↔ P s ∧ G s e)) {s : σ} {es : List ε} (hs : I s) :
    P (es.foldl step s) ↔ P s ∧ ∀ v ∈ visits step s es, G v.1 v.2 := by
  induction es generalizing s with
  | nil => simp
  | cons e es ih =>
      rw [List.foldl_cons, ih (hstep s e hs), hiff s e hs, visits_cons, List.forall_mem_cons,
        and_assoc]

/-- **Every point of a run**: the start, and what is reached by each step. -/
theorem forall_prefix_iff (P : σ → Prop) (s : σ) (es : List ε) :
    (∀ earlier, earlier <+: es → P (earlier.foldl step s)) ↔
      P s ∧ ∀ v ∈ visits step s es, P (step v.1 v.2) := by
  induction es generalizing s with
  | nil =>
      simp only [List.prefix_nil, forall_eq, List.foldl_nil, visits_nil, List.not_mem_nil,
        false_imp_iff, implies_true, and_true]
  | cons e es ih =>
      rw [visits_cons, List.forall_mem_cons, ← ih (step s e)]
      constructor
      · intro h
        refine ⟨h [] List.nil_prefix, fun earlier hearlier => ?_⟩
        exact h (e :: earlier) (by simpa using hearlier)
      · rintro ⟨hstart, hrest⟩ earlier hearlier
        cases earlier with
        | nil => exact hstart
        | cons d earlier =>
            obtain ⟨rfl, hlater⟩ := List.cons_prefix_cons.mp hearlier
            exact hrest earlier hlater

/-- **The frame rule**: what is read off the state is the same at every point of a run
exactly when no step of the run changes it. -/
theorem prefix_iff {β : Type*} (f : σ → β) (s : σ) (es : List ε) :
    (∀ earlier, earlier <+: es → f (earlier.foldl step s) = f s) ↔
      ∀ v ∈ visits step s es, f (step v.1 v.2) = f v.1 := by
  rw [forall_prefix_iff step (fun t => f t = f s), and_iff_right rfl]
  exact visits_iff step (I := fun t => f t = f s) (P := fun t e => f (step t e) = f s)
    (G := fun t e => f (step t e) = f t) (fun t e ht => by rw [ht])
    (fun t e ht hsame => hsame.trans ht) rfl

/-- **The last event**: in a history to which one event was added, an event is that one, or one
of those before it. -/
theorem concat_eq_append_cons_iff {history earlier later : List ε} {last e : ε} :
    history ++ [last] = earlier ++ e :: later ↔
      (later = [] ∧ earlier = history ∧ e = last) ∨
        ∃ rest, later = rest ++ [last] ∧ history = earlier ++ e :: rest := by
  constructor
  · intro heq
    rcases List.eq_nil_or_concat later with rfl | ⟨rest, d, rfl⟩
    · obtain ⟨rfl, hlast⟩ := List.append_inj' heq rfl
      exact Or.inl ⟨rfl, rfl, (List.singleton_inj.mp hlast).symm⟩
    · rw [List.concat_eq_append, ← List.cons_append, ← List.append_assoc] at heq
      obtain ⟨hhistory, hlast⟩ := List.append_inj' heq rfl
      exact Or.inr ⟨rest, by rw [List.concat_eq_append, List.singleton_inj.mp hlast], hhistory⟩
  · rintro (⟨rfl, rfl, rfl⟩ | ⟨rest, rfl, rfl⟩)
    · rfl
    · rw [List.append_assoc, List.cons_append]

end Runs
