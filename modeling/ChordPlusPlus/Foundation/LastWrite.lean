import Mathlib.Data.List.Induction

/-!
# The last write

A sequence of actions of which some write to a cell: `f a` is what the action `a` writes, if it
does.  `LastWrite.last` is what the last of them has written, and a store that is changed by the
actions one after the other holds it (`LastWrite.read_foldl`).  Where actions may also take a value
away, `LastWrite.InForce` says that none of them has done so since the value was set.
-/

namespace LastWrite

variable {A B : Type*}

/-- What the last action that writes has written. -/
def last (f : A → Option B) (as : List A) : Option B := as.reverse.findSome? f

variable {f : A → Option B} {as : List A}

@[simp] lemma last_nil : last f [] = none := rfl

/-- A further action overwrites, if it writes. -/
lemma last_concat (a : A) : last f (as ++ [a]) = (f a).or (last f as) := by
  rw [last, List.reverse_append, List.reverse_singleton, List.singleton_append,
    List.findSome?_cons]
  rcases f a with _ | b <;> rfl

/-- The last write is one of the writes, and none comes after it. -/
lemma last_eq_some_iff {b : B} : last f as = some b ↔
    ∃ before a after, as = before ++ a :: after ∧ f a = some b ∧ ∀ c ∈ after, f c = none := by
  rw [last, List.findSome?_eq_some_iff]
  constructor
  · rintro ⟨after, a, before, hsplit, ha, hafter⟩
    refine ⟨before.reverse, a, after.reverse, ?_, ha, ?_⟩
    · rw [← List.reverse_reverse as, hsplit]
      simp
    · intro c hc
      exact hafter c (List.mem_reverse.mp hc)
  · rintro ⟨before, a, after, rfl, ha, hafter⟩
    refine ⟨after.reverse, a, before.reverse, by simp, ha, ?_⟩
    intro c hc
    exact hafter c (List.mem_reverse.mp hc)

/-- If there is a write, there is a last one. -/
lemma exists_last_of_mem {a : A} {b : B} (ha : a ∈ as) (hb : f a = some b) :
    ∃ c, last f as = some c := by
  rw [← Option.isSome_iff_exists, last, List.findSome?_isSome_iff]
  exact ⟨a, List.mem_reverse.mpr ha, by rw [hb]; rfl⟩

/-- A store holds what was written to it last.  The actions may depend on an invariant `P` of the
store. -/
lemma read_foldl {σ : Type*} {step : σ → A → σ} (read : σ → Option B) {P : σ → Prop}
    {Q : A → Prop} (hP : ∀ s a, P s → Q a → P (step s a))
    (hread : ∀ s a, P s → Q a → read (step s a) = (f a).or (read s)) {s : σ} (hs : P s)
    (has : ∀ a ∈ as, Q a) :
    P (as.foldl step s) ∧ read (as.foldl step s) = (last f as).or (read s) := by
  induction as using List.reverseRecOn with
  | nil => exact ⟨hs, by simp⟩
  | append_singleton as a ih =>
    obtain ⟨hfold, hvalue⟩ := ih fun x hx => has x (List.mem_append_left _ hx)
    have ha := has a (List.mem_append_right _ (List.mem_singleton_self a))
    rw [List.foldl_append, List.foldl_cons, List.foldl_nil, last_concat]
    refine ⟨hP _ _ hfold ha, ?_⟩
    rw [hread _ _ hfold ha, hvalue, Option.or_assoc]

/-! ## Values that come and go -/

section InForce

variable {sets keeps : A → B → Prop} {b : B}

/-- Some action sets the value, and all later ones keep it. -/
def InForce (sets keeps : A → B → Prop) (as : List A) (b : B) : Prop :=
  ∃ before a after, as = before ++ a :: after ∧ sets a b ∧ ∀ c ∈ after, keeps c b

/-- A further action sets the value, or it keeps it. -/
lemma inForce_concat {a : A} :
    InForce sets keeps (as ++ [a]) b ↔ sets a b ∨ InForce sets keeps as b ∧ keeps a b := by
  constructor
  · rintro ⟨before, c, after, hsplit, hsets, hkeeps⟩
    rcases List.eq_nil_or_concat after with rfl | ⟨after, d, rfl⟩
    · obtain ⟨-, hlast⟩ := List.append_inj' hsplit rfl
      obtain rfl : a = c := List.singleton_inj.mp hlast
      exact Or.inl hsets
    · rw [List.concat_eq_append] at hsplit hkeeps
      rw [← List.cons_append, ← List.append_assoc] at hsplit
      obtain ⟨hinit, hlast⟩ := List.append_inj' hsplit rfl
      obtain rfl : a = d := List.singleton_inj.mp hlast
      refine Or.inr ⟨⟨before, c, after, hinit, hsets, ?_⟩, ?_⟩
      · exact fun d hd => hkeeps d (List.mem_append_left _ hd)
      · exact hkeeps a (List.mem_append_right _ (List.mem_singleton_self a))
  · rintro (hsets | ⟨⟨before, c, after, rfl, hsets, hkeeps⟩, ha⟩)
    · exact ⟨as, a, [], rfl, hsets, by simp⟩
    · refine ⟨before, c, after ++ [a], by simp, hsets, ?_⟩
      intro d hd
      rcases List.mem_append.mp hd with hold | hnew
      · exact hkeeps d hold
      · rwa [List.mem_singleton.mp hnew]

/-- A cell that is empty at first holds the value in force. -/
lemma read_foldl_eq_some_iff {σ : Type*} {step : σ → A → σ} (read : σ → Option B)
    (hread : ∀ s a b, read (step s a) = some b ↔ sets a b ∨ read s = some b ∧ keeps a b) {s : σ}
    (hs : read s = none) : read (as.foldl step s) = some b ↔ InForce sets keeps as b := by
  induction as using List.reverseRecOn with
  | nil =>
    rw [List.foldl_nil, hs]
    constructor
    · rintro ⟨⟩
    · rintro ⟨before, a, after, hsplit, -⟩
      simp at hsplit
  | append_singleton as a ih =>
    rw [List.foldl_append, List.foldl_cons, List.foldl_nil, hread, inForce_concat, ih]

end InForce

end LastWrite
