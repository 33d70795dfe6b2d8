import ChordPlusPlus.Foundation.Run
import Mathlib.Data.Countable.Defs
import Mathlib.Data.Nat.Pairing
import Mathlib.Data.Set.Finite.Lattice
import Mathlib.Order.Filter.AtTopBot.Basic

/-!
# Infinite runs

`Run.Endless` is an infinite run of a guarded step function.  That something happens again and again
along a run is `∃ᶠ i in atTop`, and that it holds from some time on is `∀ᶠ i in atTop`.

`Run.frequently_of_rank` is the rule for a thread that goes through a loop: if every action of the
thread, other than the one it is about to reach, brings it closer, and nothing else moves it, then a
thread that is never stopped reaches this action again and again.
-/

namespace Run

open Filter

variable {σ A : Type*} {step : A → σ → Option σ}

variable (step) in
/-- An infinite run from `s₀`. -/
structure Endless (s₀ : σ) (run : ℕ → σ) (act : ℕ → A) : Prop where
  start : run 0 = s₀
  next : ∀ i, step (act i) (run i) = some (run (i + 1))

/-- The states of an infinite run are reachable from where its start is. -/
lemma Endless.reachable {s s₀ : σ} {run : ℕ → σ} {act : ℕ → A} (h : Endless step s₀ run act)
    (hs : Reachable step s s₀) (i : ℕ) : Reachable step s (run i) := by
  induction i with
  | zero => rwa [h.start]
  | succ i ih => exact ih.next (h.next i)

/-- A finite part of an infinite run. -/
lemma Endless.exec_range {s₀ : σ} {run : ℕ → σ} {act : ℕ → A} (h : Endless step s₀ run act) (i : ℕ) :
    exec step ((List.range i).map act) s₀ = some (run i) := by
  induction i with
  | zero => rw [← h.start]; rfl
  | succ i ih =>
    rw [List.range_succ, List.map_append]
    exact exec_append_eq_some.mpr ⟨run i, ih, exec_cons_eq_some.mpr ⟨_, h.next i, rfl⟩⟩

/-- What can be checked of the state after the first `i` steps. -/
lemma Endless.of_decide {s₀ : σ} {run : ℕ → σ} {act : ℕ → A} (h : Endless step s₀ run act)
    {p : σ → Prop} [DecidablePred p] (i : ℕ)
    (hp : (exec step ((List.range i).map act) s₀).map (fun s => decide (p s)) = some true) :
    p (run i) := by
  rw [h.exec_range i] at hp
  exact of_decide_eq_true (Option.some.inj hp)

/-- A schedule that can always go on is that of an infinite run. -/
lemma exists_endless {act : ℕ → A} {P : ℕ → σ → Prop} {s₀ : σ} (h₀ : P 0 s₀)
    (hstep : ∀ i s, P i s → ∃ s', step (act i) s = some s' ∧ P (i + 1) s') :
    ∃ run, Endless step s₀ run act ∧ ∀ i, P i (run i) := by
  choose! next hnext hP using hstep
  let run : ℕ → σ := Nat.rec s₀ fun i s => next i s
  have hrun : ∀ i, P i (run i) := by
    intro i
    induction i with
    | zero => exact h₀
    | succ i ih => exact hP i (run i) ih
  exact ⟨run, ⟨rfl, fun i => hnext i (run i) (hrun i)⟩, hrun⟩

/-- A run to a state in which an action may be repeated is the beginning of an infinite run. -/
lemma exists_endless_of_loop {P : A → σ → Prop} {as : List A} {a : A} {s₀ s : σ}
    (h : exec step as s₀ = some s) (hmeets : Meets step P as s₀) (hloop : step a s = some s)
    (hP : P a s) :
    ∃ run, Endless step s₀ run (fun i => as.getD i a) ∧ (∀ i ≥ as.length, run i = s) ∧
      ∀ i, P (as.getD i a) (run i) := by
  induction as generalizing s₀ with
  | nil =>
    obtain rfl := Option.some.inj h
    exact ⟨fun _ => s₀, ⟨rfl, fun i => by simpa using hloop⟩, fun _ _ => rfl, fun i => by simpa using hP⟩
  | cons b as ih =>
    obtain ⟨t, hstep, hrest⟩ := exec_cons_eq_some.mp h
    obtain ⟨hb, has⟩ := meets_cons.mp hmeets
    obtain ⟨run, hrun, hend, hmet⟩ := ih hrest (has t hstep)
    refine ⟨fun i => Nat.casesOn i s₀ run, ⟨rfl, ?_⟩, ?_, ?_⟩
    · rintro (_ | i)
      · exact hstep.trans (congrArg some hrun.start.symm)
      · exact hrun.next i
    · rintro (_ | i) hi
      · cases hi
      · exact hend i (Nat.le_of_succ_le_succ hi)
    · rintro (_ | i)
      · exact hb
      · exact hmet i

/-- Finitely many indices lie below some index. -/
lemma exists_bound_of_finite {marked : ℕ → Prop} {k : ℕ} (h : {i | k ≤ i ∧ marked i}.Finite) :
    ∃ K ≥ k, ∀ i ≥ K, ¬ marked i := by
  obtain ⟨B, hB⟩ := h.bddAbove
  refine ⟨max k (B + 1), le_max_left _ _, ?_⟩
  intro i hi hmark
  have hle : i ≤ B := hB ⟨(le_max_left k _).trans hi, hmark⟩
  have hlt : B + 1 ≤ i := (le_max_right k _).trans hi
  omega

/-- What does not change any more is constant. -/
lemma const_of_no_change {β : Type*} {f : ℕ → β} {K : ℕ} (h : ∀ i ≥ K, ¬ f (i + 1) ≠ f i) {i : ℕ}
    (hi : K ≤ i) : f i = f K := by
  induction i, hi using Nat.le_induction with
  | base => rfl
  | succ i hi ih => exact (not_not.mp (h i hi)).trans ih

/-- What happens once and is kept holds from some time on. -/
lemma eventually_of_stable {P : ℕ → Prop} {k : ℕ} (hstable : ∀ i ≥ k, P i → P (i + 1))
    (honce : ∃ i ≥ k, P i) : ∀ᶠ i in atTop, P i := by
  obtain ⟨i, hi, hP⟩ := honce
  refine eventually_atTop.mpr ⟨i, ?_⟩
  intro j hj
  induction j, hj using Nat.le_induction with
  | base => exact hP
  | succ j hj ih => exact hstable j (hi.trans hj) ih

/-- A thread that comes closer to its goal with every action, and is not moved by anything else, reaches
the goal again and again if it acts again and again. -/
theorem frequently_of_rank (μ : ℕ → ℕ) (own goal : ℕ → Prop) {k : ℕ}
    (hstay : ∀ i ≥ k, ¬ own i → μ (i + 1) = μ i)
    (hrank : ∀ i ≥ k, own i → ¬ goal i → μ (i + 1) < μ i) (hown : ∃ᶠ i in atTop, own i) :
    ∃ᶠ i in atTop, own i ∧ goal i := by
  rw [frequently_atTop] at hown ⊢
  intro a
  by_contra hnever
  push Not at hnever
  have hgoal : ∀ i ≥ max k a, own i → ¬ goal i :=
    fun i hi ho => hnever i ((le_max_right k a).trans hi) ho
  -- Without the goal the rank would shrink for ever.
  have hfinite : {i | max k a ≤ i ∧ own i}.Finite := by
    refine finite_of_strict_decrease μ ?_ ?_
    · intro i hi
      have hk : k ≤ i := (le_max_left k a).trans hi
      by_cases ho : own i
      · exact (hrank i hk ho (hgoal i hi ho)).le
      · exact (hstay i hk ho).le
    · intro i hi ho
      exact hrank i ((le_max_left k a).trans hi) ho (hgoal i hi ho)
  obtain ⟨K, hK, hnone⟩ := exists_bound_of_finite hfinite
  obtain ⟨i, hi, ho⟩ := hown K
  exact hnone i hi ho

/-! ## Fair runs exist -/

variable (step) in
/-- The thread `t`, whose actions are those of `of t`, has an action in the state `s`. -/
def Enabled {T : Type*} (of : T → A → Prop) (t : T) (s : σ) : Prop :=
  ∃ a s', of t a ∧ step a s = some s'

/-- If some thread can always act, there is a run that gives each of countably many threads its turn
again and again: a thread that can act at its turn does. -/
theorem exists_fair {T : Type*} [Countable T] (of : T → A → Prop) {P : σ → Prop}
    (hstep : ∀ t a s s', of t a → P s → step a s = some s' → P s')
    (hlive : ∀ s, P s → ∃ t, Enabled step of t s) {s₀ : σ} (h₀ : P s₀) :
    ∃ run act, Endless step s₀ run act ∧ (∀ i, P (run i)) ∧ (∀ i, ∃ t, of t (act i)) ∧
      ∀ t, ∃ᶠ i in atTop, Enabled step of t (run i) → of t (act i) := by
  have hnext : ∀ (t : T) (s : {s // P s}), ∃ p : A × {s // P s}, (∃ u, of u p.1) ∧
      step p.1 s = some p.2.1 ∧ (Enabled step of t s → of t p.1) := by
    intro t s
    by_cases ht : Enabled step of t s
    · obtain ⟨a, s', hof, hs'⟩ := ht
      exact ⟨(a, ⟨s', hstep t a s s' hof s.2 hs'⟩), ⟨t, hof⟩, hs', fun _ => hof⟩
    · obtain ⟨u, a, s', hof, hs'⟩ := hlive s s.2
      exact ⟨(a, ⟨s', hstep u a s s' hof s.2 hs'⟩), ⟨u, hof⟩, hs', fun h => absurd h ht⟩
  choose next hnext using hnext
  have : Nonempty T := (hlive s₀ h₀).nonempty
  obtain ⟨f, hf⟩ := exists_surjective_nat T
  -- The thread whose turn it is at the index `i`; each thread has infinitely many turns.
  let turn : ℕ → T := fun i => f i.unpair.1
  let run : ℕ → {s // P s} := Nat.rec ⟨s₀, h₀⟩ fun i s => (next (turn i) s).2
  refine ⟨fun i => (run i).1, fun i => (next (turn i) (run i)).1, ?_, ?_, ?_, ?_⟩
  · exact ⟨rfl, fun i => (hnext (turn i) (run i)).2.1⟩
  · exact fun i => (run i).2
  · exact fun i => (hnext (turn i) (run i)).1
  · intro t
    obtain ⟨k, rfl⟩ := hf t
    rw [frequently_atTop]
    intro a
    refine ⟨Nat.pair k a, Nat.right_le_pair k a, ?_⟩
    have hturn : turn (Nat.pair k a) = f k := by simp [turn]
    intro henabled
    exact hturn ▸ (hnext (turn (Nat.pair k a)) (run (Nat.pair k a))).2.2 (hturn ▸ henabled)

end Run
