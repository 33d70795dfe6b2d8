import ChordPlusPlus.Foundation.Fair
import Mathlib.Data.DFinsupp.WellFounded
import Mathlib.Data.List.GetD

/-!
# Runs on a bounded stack

A program works at the top of a stack of levels, each with some amount of work left.  A step takes work
away at the top; it may at the same time push levels with any amount of work, or it takes an empty level
away.  If the stack is bounded, the program ends (`Run.not_endless` with `StackLt.wellFounded`), although
no number bounds its steps.
-/

/-- The amount of work at the first level at which two stacks differ, counted from the bottom, is less
in `x` than in `y`. -/
def StackLt (bound : ℕ) (x y : List ℕ) : Prop :=
  ∃ d < bound, (∀ e < d, x.getD e 0 = y.getD e 0) ∧ x.getD d 0 < y.getD d 0

namespace StackLt

variable {bound a b : ℕ} {pre : List ℕ}

lemma wellFounded (bound : ℕ) : WellFounded (StackLt bound) := by
  have hlex : WellFounded fun x y : List ℕ =>
      Pi.Lex (· < ·) (· < ·) (fun d : Fin bound => x.getD d 0) (fun d : Fin bound => y.getD d 0) :=
    InvImage.wf (fun x : List ℕ => fun d : Fin bound => x.getD d 0)
      (Pi.Lex.wellFounded (· < ·) fun _ => wellFounded_lt)
  refine Subrelation.wf ?_ hlex
  rintro x y ⟨d, hd, hbelow, hlt⟩
  exact ⟨⟨d, hd⟩, fun e he => hbelow e he, hlt⟩

/-- There is less work at the top; above it there may be anything. -/
lemma push (hlt : a < b) (hbound : pre.length < bound) (rest : List ℕ) :
    StackLt bound (pre ++ a :: rest) (pre ++ [b]) := by
  refine ⟨pre.length, hbound, ?_, ?_⟩
  · intro e he
    rw [List.getD_append _ _ _ _ he, List.getD_append _ _ _ _ he]
  · rw [List.getD_append_right _ _ _ _ le_rfl, List.getD_append_right _ _ _ _ le_rfl]
    simpa using hlt

/-- A level is taken away. -/
lemma pop (hpos : 0 < b) (hbound : pre.length < bound) : StackLt bound pre (pre ++ [b]) := by
  refine ⟨pre.length, hbound, ?_, ?_⟩
  · intro e he
    rw [List.getD_append _ _ _ _ he]
  · rw [List.getD_append_right _ _ _ _ le_rfl, List.getD_eq_default _ _ le_rfl]
    simpa using hpos

/-- Some of the work on the higher stack may be left out of account. -/
lemma of_le {x y z : List ℕ} (h : StackLt bound x y) (hle : ∀ e, y.getD e 0 ≤ z.getD e 0) :
    StackLt bound x z := by
  obtain ⟨d, hd, hbelow, hlt⟩ := h
  by_cases hless : ∃ e < d, y.getD e 0 < z.getD e 0
  · -- The first level at which there is less.
    obtain ⟨he, hfirst⟩ := Nat.find_spec hless
    refine ⟨Nat.find hless, he.trans hd, ?_, ?_⟩
    · intro e hlower
      have hmin := Nat.find_min hless hlower
      have hsame : y.getD e 0 = z.getD e 0 :=
        Nat.le_antisymm (hle e) (not_lt.mp fun h => hmin ⟨hlower.trans he, h⟩)
      rw [hbelow e (hlower.trans he), hsame]
    · rw [hbelow _ he]
      exact hfirst
  · refine ⟨d, hd, ?_, lt_of_lt_of_le hlt (hle d)⟩
    intro e he
    rw [hbelow e he]
    exact Nat.le_antisymm (hle e) (not_lt.mp fun h => hless ⟨e, he, h⟩)

end StackLt

/-- Stacks of the same height are compared level by level. -/
lemma List.Forall₂.getD_le {x y : List ℕ} (h : List.Forall₂ (· ≤ ·) x y) (e : ℕ) :
    x.getD e 0 ≤ y.getD e 0 := by
  induction h generalizing e with
  | nil => exact Nat.le_refl _
  | cons hle _ ih =>
    cases e with
    | zero => exact hle
    | succ e => exact ih e

namespace Run

variable {σ A : Type*} {step : A → σ → Option σ} {P : σ → Prop}

/-- Steps that lead downwards do not go on for ever. -/
theorem not_endless {r : σ → σ → Prop} (hwf : WellFounded r)
    (hstep : ∀ a s t, P s → step a s = some t → P t ∧ r t s) {s₀ : σ} (h₀ : P s₀)
    (run : ℕ → σ) (act : ℕ → A) : ¬ Endless step s₀ run act := by
  intro hrun
  have hP : ∀ i, P (run i) := by
    intro i
    induction i with
    | zero => exact hrun.start ▸ h₀
    | succ i ih => exact (hstep _ _ _ ih (hrun.next i)).1
  have : IsWellFounded σ r := ⟨hwf⟩
  obtain ⟨i, hi⟩ := WellFounded.not_rel_apply_succ (r := r) run
  exact hi (hstep _ _ _ (hP i) (hrun.next i)).2

end Run
