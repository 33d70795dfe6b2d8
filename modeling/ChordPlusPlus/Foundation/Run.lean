import Mathlib.Data.Set.Finite.Basic
import Mathlib.Order.Interval.Set.Basic
import Mathlib.Order.Interval.Finset.Nat
import Mathlib.Logic.Relation

/-!
# Runs of a guarded step function

A system is given by a step function `step : A → σ → Option σ`, where `step a s = none` means that
the action `a` is not enabled in the state `s`.  `Run.exec` performs a list of actions,
`Run.Reachable` are the states that some list of actions leads to, and `Run.Weave` lists the
interleavings of one fixed sequence of actions with arbitrary actions of a second kind.  `Run.Scan`
describes loops that count up until they find something.
-/

namespace Run

variable {σ A : Type*} (step : A → σ → Option σ)

/-- Performs the actions from left to right. -/
def exec : List A → σ → Option σ
  | [], s => some s
  | a :: as, s => (step a s).bind (exec as)

/-- The states that some list of actions leads to from `s₀`. -/
def Reachable (s₀ s : σ) : Prop := ∃ as, exec step as s₀ = some s

variable {step}

@[simp] lemma exec_nil (s : σ) : exec step [] s = some s := rfl

/-- A run of a non-empty list is a step followed by a run of the rest. -/
lemma exec_cons_eq_some {a : A} {as : List A} {s s' : σ} :
    exec step (a :: as) s = some s' ↔ ∃ t, step a s = some t ∧ exec step as t = some s' :=
  Option.bind_eq_some_iff

/-- A run of a concatenation is a run of the first part followed by a run of the second. -/
lemma exec_append_eq_some {as bs : List A} {s s' : σ} :
    exec step (as ++ bs) s = some s' ↔
      ∃ t, exec step as s = some t ∧ exec step bs t = some s' := by
  induction as generalizing s with
  | nil => simp
  | cons a as ih =>
    rw [List.cons_append, exec_cons_eq_some]
    constructor
    · rintro ⟨t, ht, hrest⟩
      obtain ⟨u, hu, hu'⟩ := ih.mp hrest
      exact ⟨u, exec_cons_eq_some.mpr ⟨t, ht, hu⟩, hu'⟩
    · rintro ⟨u, hu, hu'⟩
      obtain ⟨t, ht, hrest⟩ := exec_cons_eq_some.mp hu
      exact ⟨t, ht, ih.mpr ⟨u, hrest, hu'⟩⟩

/-- A run of concrete actions, with what can be checked of the state it leads to. -/
lemma exists_exec_of_decide {p : σ → Prop} [DecidablePred p] {as : List A} {s : σ}
    (h : (exec step as s).map (fun t => decide (p t)) = some true) :
    ∃ t, exec step as s = some t ∧ p t := by
  obtain ⟨t, ht, hp⟩ := Option.map_eq_some_iff.mp h
  exact ⟨t, ht, of_decide_eq_true hp⟩

/-- What one step preserves, a run preserves. -/
theorem exec_invariant {P : σ → Prop} (hstep : ∀ a s s', P s → step a s = some s' → P s')
    {as : List A} {s s' : σ} (hs : P s) (h : exec step as s = some s') : P s' := by
  induction as generalizing s with
  | nil => exact Option.some.inj h ▸ hs
  | cons a as ih =>
    obtain ⟨t, ht, hrest⟩ := exec_cons_eq_some.mp h
    exact ih (hstep a s t hs ht) hrest

variable (step) in
/-- Every action of the run meets the condition `P` in the state in which it takes place. -/
def Meets (P : A → σ → Prop) (as : List A) (s : σ) : Prop :=
  ∀ pre a post t, as = pre ++ a :: post → exec step pre s = some t → P a t

/-- A run meets a condition if its first action and the rest of the run do. -/
lemma meets_cons {P : A → σ → Prop} {a : A} {as : List A} {s : σ} :
    Meets step P (a :: as) s ↔ P a s ∧ ∀ t, step a s = some t → Meets step P as t := by
  constructor
  · intro h
    refine ⟨h [] a as s rfl rfl, ?_⟩
    intro t ht pre c post u hsplit hpre
    exact h (a :: pre) c post u (by rw [hsplit]; rfl) (exec_cons_eq_some.mpr ⟨t, ht, hpre⟩)
  · rintro ⟨ha, hrest⟩ pre c post u hsplit hpre
    cases pre with
    | nil =>
      obtain ⟨rfl, -⟩ := List.cons.inj hsplit
      exact Option.some.inj hpre ▸ ha
    | cons d pre =>
      obtain ⟨rfl, rfl⟩ := List.cons.inj hsplit
      obtain ⟨t, ht, hpre⟩ := exec_cons_eq_some.mp hpre
      exact hrest t ht pre c post u rfl hpre

/-- A run meets what its actions meet in every state. -/
lemma meets_of_forall {P : A → σ → Prop} {as : List A} {s : σ} (h : ∀ a ∈ as, ∀ t, P a t) :
    Meets step P as s := by
  rintro pre a post t rfl -
  exact h a (by simp) t

/-- Whether a run meets a decidable condition can be found out by running it. -/
instance decidableMeets {P : A → σ → Prop} [∀ a s, Decidable (P a s)] :
    ∀ (as : List A) (s : σ), Decidable (Meets step P as s)
  | [], _ => isTrue (by intro pre a post t hsplit; simp at hsplit)
  | a :: as, s =>
      match hstep : step a s with
      | none => decidable_of_iff (P a s) (by simp [meets_cons, hstep])
      | some t =>
          have : Decidable (Meets step P as t) := decidableMeets as t
          decidable_of_iff (P a s ∧ Meets step P as t) (by simp [meets_cons, hstep])

/-- What the steps that meet a condition preserve, a run of such steps preserves. -/
theorem exec_invariant_of_meets {P : A → σ → Prop} {I : σ → Prop}
    (hstep : ∀ a s s', I s → P a s → step a s = some s' → I s') {as : List A} {s s' : σ}
    (hmeets : Meets step P as s) (hs : I s) (h : exec step as s = some s') : I s' := by
  induction as generalizing s with
  | nil => exact Option.some.inj h ▸ hs
  | cons a as ih =>
    obtain ⟨t, ht, hrest⟩ := exec_cons_eq_some.mp h
    obtain ⟨ha, hmeets⟩ := meets_cons.mp hmeets
    exact ih (hmeets t ht) (hstep a s t hs ha ht) hrest

/-- An invariant may speak about the number of marked actions there have been. -/
theorem exec_counted {P : A → σ → Prop} {marked : A → Bool} {I : ℕ → σ → Prop}
    (hstep : ∀ n a s s', I n s → P a s → step a s = some s' → I (n + (marked a).toNat) s')
    {as : List A} {s s' : σ} {n : ℕ} (hmeets : Meets step P as s) (hs : I n s)
    (h : exec step as s = some s') : I (n + as.countP marked) s' := by
  induction as generalizing s n with
  | nil => exact Option.some.inj h ▸ hs
  | cons a as ih =>
    obtain ⟨t, ht, hrest⟩ := exec_cons_eq_some.mp h
    obtain ⟨ha, hmeets⟩ := meets_cons.mp hmeets
    have hcount : n + (a :: as).countP marked = n + (marked a).toNat + as.countP marked := by
      cases hmark : marked a with
      | true =>
        rw [List.countP_cons_of_pos hmark, Bool.toNat_true]
        omega
      | false =>
        rw [List.countP_cons_of_neg (by simp [hmark]), Bool.toNat_false]
        omega
    exact hcount ▸ ih (hmeets t ht) (hstep n a s t hs ha ht) hrest

/-- What holds initially and is preserved by every step holds in every reachable state. -/
theorem Reachable.invariant {P : σ → Prop} (hstep : ∀ a s s', P s → step a s = some s' → P s')
    {s₀ s : σ} (hinit : P s₀) (h : Reachable step s₀ s) : P s := by
  obtain ⟨as, has⟩ := h
  exact exec_invariant hstep hinit has

lemma Reachable.next {a : A} {s₀ s s' : σ} (h : Reachable step s₀ s) (hstep : step a s = some s') :
    Reachable step s₀ s' := by
  obtain ⟨as, has⟩ := h
  refine ⟨as ++ [a], exec_append_eq_some.mpr ⟨s, has, ?_⟩⟩
  exact exec_cons_eq_some.mpr ⟨s', hstep, rfl⟩

/-- What holds initially and is preserved by every step from a reachable state holds in every reachable
state. -/
theorem Reachable.induction {P : σ → Prop} {s₀ s : σ} (hinit : P s₀)
    (hstep : ∀ a s s', Reachable step s₀ s → P s → step a s = some s' → P s')
    (h : Reachable step s₀ s) : P s := by
  refine (Reachable.invariant (P := fun t => Reachable step s₀ t ∧ P t) ?_ ⟨⟨[], rfl⟩, hinit⟩ h).2
  rintro a t t' ⟨hreached, ht⟩ ht'
  exact ⟨hreached.next ht', hstep a t t' hreached ht ht'⟩

/-! ## Measures along infinite runs -/

/-- A natural number that never grows from index `k` on and shrinks at every marked index has only
finitely many marked indices. -/
theorem finite_of_strict_decrease (μ : ℕ → ℕ) {marked : ℕ → Prop} {k : ℕ}
    (hle : ∀ i ≥ k, μ (i + 1) ≤ μ i) (hlt : ∀ i ≥ k, marked i → μ (i + 1) < μ i) :
    {i | k ≤ i ∧ marked i}.Finite := by
  -- By induction on the value at `k`: after the first marked index the value is smaller.
  induction hv : μ k using Nat.strong_induction_on generalizing k with
  | _ v ih =>
    subst hv
    by_cases hex : ∃ i ≥ k, marked i
    · obtain ⟨i, hi, hmark⟩ := hex
      have hmono : ∀ j, k ≤ j → μ j ≤ μ k := by
        intro j hj
        induction j, hj using Nat.le_induction with
        | base => exact le_rfl
        | succ j hj ihj => exact (hle j hj).trans ihj
      have hsmall : μ (i + 1) < μ k := (hlt i hi hmark).trans_le (hmono i hi)
      have htail := @ih _ hsmall (i + 1)
        (fun j hj => hle j (by omega)) (fun j hj => hlt j (by omega)) rfl
      apply ((Set.finite_Iic i).union htail).subset
      rintro j ⟨hkj, hj⟩
      rcases Nat.lt_or_ge i j with h | h
      · exact Or.inr ⟨h, hj⟩
      · exact Or.inl h
    · have hempty : {i | k ≤ i ∧ marked i} = ∅ := by
        ext i
        simp only [Set.mem_ofPred_eq, Set.mem_empty_iff_false, iff_false]
        rintro ⟨hi, hmark⟩
        exact hex ⟨i, hi, hmark⟩
      rw [hempty]
      exact Set.finite_empty

/-! ## Scans -/

/-- Counting up from `i`, an index with `found` is met: `within` holds up to this index, and
`passed` holds at all indices before it. -/
def Scan (within found passed : ℕ → Prop) (i : ℕ) : Prop :=
  ∃ k ≥ i, (∀ j ≥ i, j ≤ k → within j) ∧ found k ∧ ∀ j ≥ i, j < k → passed j

/-- A scan looks at its first index and then goes on. -/
lemma scan_iff {within found passed : ℕ → Prop} {i : ℕ} : Scan within found passed i ↔
    within i ∧ (found i ∨ passed i ∧ Scan within found passed (i + 1)) := by
  constructor
  · rintro ⟨k, hk, hwithin, hfound, hpassed⟩
    refine ⟨hwithin i le_rfl hk, ?_⟩
    rcases Nat.eq_or_lt_of_le hk with rfl | hlt
    · exact Or.inl hfound
    · refine Or.inr ⟨hpassed i le_rfl hlt, k, hlt, ?_, hfound, ?_⟩
      · exact fun j hj hjk => hwithin j (Nat.le_of_succ_le hj) hjk
      · exact fun j hj hjk => hpassed j (Nat.le_of_succ_le hj) hjk
  · rintro ⟨hi, hfound | ⟨hpass, k, hk, hwithin, hfound, hpassed⟩⟩
    · refine ⟨i, le_rfl, ?_, hfound, ?_⟩
      · intro j hj hji
        rwa [Nat.le_antisymm hji hj]
      · intro j hj hji
        exact absurd hji (Nat.not_lt.mpr hj)
    · refine ⟨k, Nat.le_of_succ_le hk, ?_, hfound, ?_⟩
      · intro j hj hjk
        rcases Nat.eq_or_lt_of_le hj with rfl | hlt
        · exact hi
        · exact hwithin j hlt hjk
      · intro j hj hjk
        rcases Nat.eq_or_lt_of_le hj with rfl | hlt
        · exact hpass
        · exact hpassed j hlt hjk

/-- A scan whose tests agree at every index within the bound meets the same. -/
lemma scan_congr {within found found' passed passed' : ℕ → Prop} {i : ℕ}
    (hfound : ∀ j, found j ↔ found' j) (hpassed : ∀ j, passed j ↔ passed' j) :
    Scan within found passed i ↔ Scan within found' passed' i := by
  unfold Scan
  simp only [hfound, hpassed]

/-! ## Interleavings -/

/-- `Weave other main as`: the list `as` consists of the actions `main`, in this order, interleaved
with actions that satisfy `other`. -/
inductive Weave (other : A → Prop) : List A → List A → Prop
  | nil : Weave other [] []
  | main {a : A} {main as : List A} : Weave other main as → Weave other (a :: main) (a :: as)
  | other {a : A} {main as : List A} : other a → Weave other main as → Weave other main (a :: as)

variable {other : A → Prop} {P : σ → Prop}

/-- Nothing need be interleaved. -/
lemma Weave.self (other : A → Prop) (main : List A) : Weave other main main := by
  induction main with
  | nil => exact .nil
  | cons a main ih => exact .main ih

/-- Other actions may come first. -/
lemma Weave.append_left {as bs main : List A} (has : ∀ a ∈ as, other a)
    (h : Weave other main bs) : Weave other main (as ++ bs) := by
  induction as with
  | nil => exact h
  | cons a as ih =>
    exact .other (has a List.mem_cons_self) (ih fun c hc => has c (List.mem_cons_of_mem a hc))

/-- When only other actions are left, what they preserve holds at the end. -/
lemma Weave.exec_nil (hother : ∀ a s s', other a → P s → step a s = some s' → P s')
    {as : List A} (h : Weave other [] as) {s s' : σ} (hs : P s) (hexec : exec step as s = some s') :
    P s' := by
  induction as generalizing s with
  | nil => exact Option.some.inj hexec ▸ hs
  | cons a as ih =>
    obtain ⟨t, ht, hrest⟩ := exec_cons_eq_some.mp hexec
    cases h with
    | other ha h => exact ih h (hother a s t ha hs ht) hrest

/-- What the other actions preserve still holds when the next main action takes place. -/
lemma Weave.exec_cons (hother : ∀ a s s', other a → P s → step a s = some s' → P s')
    {a : A} {main as : List A} (h : Weave other (a :: main) as) {s s' : σ} (hs : P s)
    (hexec : exec step as s = some s') :
    ∃ t u bs, P t ∧ step a t = some u ∧ Weave other main bs ∧ exec step bs u = some s' := by
  induction as generalizing s with
  | nil => cases h
  | cons c as ih =>
    obtain ⟨t, ht, hrest⟩ := exec_cons_eq_some.mp hexec
    cases h with
    | main h => exact ⟨s, t, as, hs, ht, h, hrest⟩
    | other hc h => exact ih h (hother c s t hc hs ht) hrest

/-- The same when the main actions before it are of the other kind too. -/
lemma Weave.exec_concat (hother : ∀ a s s', other a → P s → step a s = some s' → P s')
    {a : A} {main as : List A} (hmain : ∀ c ∈ main, other c) (h : Weave other (main ++ [a]) as)
    {s s' : σ} (hs : P s) (hexec : exec step as s = some s') :
    ∃ t u bs, P t ∧ step a t = some u ∧ Weave other [] bs ∧ exec step bs u = some s' := by
  induction main generalizing as s with
  | nil => exact h.exec_cons hother hs hexec
  | cons c main ih =>
    obtain ⟨t, u, bs, ht, hstep, hweave, hrest⟩ := Weave.exec_cons hother h hs hexec
    have hu : P u := hother c t u (hmain c List.mem_cons_self) ht hstep
    exact ih (fun d hd => hmain d (List.mem_cons_of_mem c hd)) hweave hu hrest

/-- When all main actions are of the other kind, what these preserve holds at the end. -/
lemma Weave.exec_all (hother : ∀ a s s', other a → P s → step a s = some s' → P s')
    {main as : List A} (hmain : ∀ c ∈ main, other c) (h : Weave other main as) {s s' : σ} (hs : P s)
    (hexec : exec step as s = some s') : P s' := by
  induction h generalizing s with
  | nil => exact Option.some.inj hexec ▸ hs
  | @main a main as _ ih =>
    obtain ⟨t, ht, hrest⟩ := exec_cons_eq_some.mp hexec
    have ha := hmain a List.mem_cons_self
    exact ih (fun c hc => hmain c (List.mem_cons_of_mem a hc)) (hother a s t ha hs ht) hrest
  | @other a main as ha _ ih =>
    obtain ⟨t, ht, hrest⟩ := exec_cons_eq_some.mp hexec
    exact ih hmain (hother a s t ha hs ht) hrest

end Run
