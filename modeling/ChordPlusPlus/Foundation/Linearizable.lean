import Mathlib.Data.List.Pairwise
import Mathlib.Data.List.Nodup

/-!
# Linearizability

A concurrent object is observed through the calls and the returns of its operations.  Such a history is
linearizable if the operations that have returned, and some that have not, can be put into one sequence
in which each of them has the result of the sequential object, and in which no operation comes before
one that had returned before it was called.

`Timeline` is what a proof keeps track of along a run: the updates in the order in which they take
effect, and for each query that has returned a number of updates after which its result was right and
which is between the numbers of updates at its call and at its return.  The place of a query is only
chosen when it returns, so that it may lie in the past.
-/

namespace Concurrency

/-- A sequential object: what an operation does to the state, and what it returns. -/
structure SeqObject (S O R : Type*) where
  apply : O → S → S × R

/-- What is observed of a concurrent object. -/
inductive Observed (O R : Type*)
  | call (i : ℕ) (op : O)
  | ret (i : ℕ) (result : R)
deriving DecidableEq

variable {S O R : Type*}

/-- The operation `i` has returned before the operation `j` was called. -/
def Precedes (h : List (Observed O R)) (i j : ℕ) : Prop :=
  ∃ r op, [Observed.ret i r, Observed.call j op].Sublist h

namespace SeqObject

/-- The operations have these results, one after the other. -/
def Legal (obj : SeqObject S O R) : S → List (O × R) → Prop
  | _, [] => True
  | s, (op, r) :: l => (obj.apply op s).2 = r ∧ obj.Legal (obj.apply op s).1 l

/-- The operation changes nothing. -/
def IsQuery (obj : SeqObject S O R) (op : O) : Prop := ∀ s, (obj.apply op s).1 = s

/-- The state after the first `p` of the updates. -/
def stateAt (obj : SeqObject S O R) (s : S) (updates : List (ℕ × O)) (p : ℕ) : S :=
  (updates.take p).foldl (fun s u => (obj.apply u.2 s).1) s

/-- The history is linearizable: some sequence of operations with their results is legal and agrees with
it. -/
def Linearizable (obj : SeqObject S O R) (s : S) (h : List (Observed O R)) : Prop :=
  ∃ l : List (ℕ × O × R), obj.Legal s (l.map Prod.snd) ∧ (l.map Prod.fst).Nodup ∧
    (∀ x ∈ l, .call x.1 x.2.1 ∈ h) ∧ (∀ i r, .ret i r ∈ h → ∃ op, (i, op, r) ∈ l) ∧
    l.Pairwise fun a b => ¬ Precedes h b.1 a.1

end SeqObject

/-- A query that has returned, and the number of updates after which it is placed. -/
structure Placed (O R : Type*) where
  id : ℕ
  op : O
  result : R
  pos : ℕ

namespace SeqObject

variable {obj : SeqObject S O R} {s : S}

/-! ## States and legal sequences -/

lemma stateAt_succ {updates : List (ℕ × O)} {q : ℕ} {u : ℕ × O} (hq : updates[q]? = some u) :
    obj.stateAt s updates (q + 1) = (obj.apply u.2 (obj.stateAt s updates q)).1 := by
  rw [stateAt, stateAt, List.take_add_one, hq, List.foldl_append]
  rfl

/-- Later updates do not change earlier states. -/
lemma stateAt_append_of_le {updates : List (ℕ × O)} {p : ℕ} (hp : p ≤ updates.length)
    (more : List (ℕ × O)) : obj.stateAt s (updates ++ more) p = obj.stateAt s updates p := by
  rw [stateAt, stateAt, List.take_append_of_le_length hp]

/-- What no update destroys stays. -/
lemma stateAt_induction {P : S → Prop} {updates : List (ℕ × O)} {p q : ℕ} (hpq : p ≤ q)
    (hstep : ∀ u ∈ updates, ∀ s, P s → P (obj.apply u.2 s).1) (h : P (obj.stateAt s updates p)) :
    P (obj.stateAt s updates q) := by
  induction hpq with
  | refl => exact h
  | @step q _ ih =>
    cases hq : updates[q]? with
    | some u =>
      rw [stateAt_succ hq]
      exact hstep u (List.mem_of_getElem? hq) _ ih
    | none =>
      rwa [stateAt, List.take_add_one, hq, Option.toList_none, List.append_nil]

/-- Queries that have the results of one state may all be asked in this state. -/
lemma legal_queries_append {queries : List (O × R)}
    (hquery : ∀ x ∈ queries, obj.IsQuery x.1 ∧ (obj.apply x.1 s).2 = x.2) {l : List (O × R)}
    (h : obj.Legal s l) : obj.Legal s (queries ++ l) := by
  induction queries with
  | nil => exact h
  | cons x queries ih =>
    obtain ⟨hx, hresult⟩ := hquery x (List.mem_cons_self ..)
    refine ⟨hresult, ?_⟩
    rw [hx s]
    exact ih fun y hy => hquery y (List.mem_cons_of_mem _ hy)

/-! ## The sequence of a timeline -/

/-- The queries placed after exactly `p` updates. -/
def placedAt (queries : List (Placed O R)) (p : ℕ) : List (ℕ × O × R) :=
  (queries.filter fun x => x.pos = p).map fun x => (x.id, x.op, x.result)

lemma mem_placedAt {queries : List (Placed O R)} {p : ℕ} {x : ℕ × O × R} :
    x ∈ placedAt queries p ↔ ⟨x.1, x.2.1, x.2.2, p⟩ ∈ queries := by
  unfold placedAt
  constructor
  · intro hx
    obtain ⟨y, hy, rfl⟩ := List.mem_map.mp hx
    obtain ⟨hmem, hpos⟩ := List.mem_filter.mp hy
    obtain rfl : y.pos = p := by simpa using hpos
    exact hmem
  · intro hx
    exact List.mem_map.mpr ⟨_, List.mem_filter.mpr ⟨hx, by simp⟩, rfl⟩

/-- The updates from the number `p` on, each after the queries that are placed before it. -/
def arrange (obj : SeqObject S O R) (queries : List (Placed O R)) :
    S → ℕ → List (ℕ × O) → List (ℕ × O × R)
  | _, p, [] => placedAt queries p
  | s, p, (i, op) :: updates =>
      placedAt queries p ++ (i, op, (obj.apply op s).2) ::
        arrange obj queries (obj.apply op s).1 (p + 1) updates

/-- An entry of the sequence is a query at its place, or an update. -/
lemma mem_arrange {queries : List (Placed O R)} {p : ℕ} {updates : List (ℕ × O)} {x : ℕ × O × R} :
    x ∈ obj.arrange queries s p updates ↔
      (∃ k ≤ updates.length, ⟨x.1, x.2.1, x.2.2, p + k⟩ ∈ queries) ∨
        ∃ k, updates[k]? = some (x.1, x.2.1) ∧
          x.2.2 = (obj.apply x.2.1 (obj.stateAt s updates k)).2 := by
  induction updates generalizing s p with
  | nil => simp [arrange, mem_placedAt]
  | cons u updates ih =>
    obtain ⟨i, op⟩ := u
    rw [arrange, List.mem_append, List.mem_cons, mem_placedAt, ih]
    constructor
    · rintro (hx | rfl | ⟨k, hk, hx⟩ | ⟨k, hk, hx⟩)
      · exact Or.inl ⟨0, Nat.zero_le _, hx⟩
      · exact Or.inr ⟨0, rfl, rfl⟩
      · refine Or.inl ⟨k + 1, by simpa using hk, ?_⟩
        rwa [show p + (k + 1) = p + 1 + k by omega]
      · exact Or.inr ⟨k + 1, hk, hx⟩
    · rintro (⟨k, hk, hx⟩ | ⟨k, hk, hx⟩)
      · cases k with
        | zero => exact Or.inl hx
        | succ k =>
          refine Or.inr (Or.inr (Or.inl ⟨k, by simpa using hk, ?_⟩))
          rwa [show p + 1 + k = p + (k + 1) by omega]
      · cases k with
        | zero =>
          obtain ⟨rfl, rfl⟩ := Prod.mk.inj (Option.some.inj hk)
          exact Or.inr (Or.inl (Prod.ext rfl (Prod.ext rfl hx)))
        | succ k => exact Or.inr (Or.inr (Or.inr ⟨k, hk, hx⟩))

/-- The sequence is legal if each query is right where it is placed. -/
lemma legal_arrange {queries : List (Placed O R)} {p : ℕ} {updates : List (ℕ × O)}
    (hquery : ∀ x ∈ queries, obj.IsQuery x.op)
    (hresult : ∀ x ∈ queries, ∀ k ≤ updates.length, x.pos = p + k →
      (obj.apply x.op (obj.stateAt s updates k)).2 = x.result) :
    obj.Legal s ((obj.arrange queries s p updates).map Prod.snd) := by
  have hplaced : ∀ x ∈ (placedAt queries p).map Prod.snd,
      obj.IsQuery x.1 ∧ (obj.apply x.1 s).2 = x.2 := by
    intro x hx
    obtain ⟨y, hy, rfl⟩ := List.mem_map.mp hx
    have hmem := mem_placedAt.mp hy
    exact ⟨hquery _ hmem, hresult _ hmem 0 (Nat.zero_le _) rfl⟩
  induction updates generalizing s p with
  | nil =>
    have hlegal := legal_queries_append hplaced (l := []) trivial
    rwa [List.append_nil] at hlegal
  | cons u updates ih =>
    obtain ⟨i, op⟩ := u
    rw [arrange, List.map_append, List.map_cons]
    refine legal_queries_append hplaced ⟨rfl, ih ?_ ?_⟩
    · intro x hx k hk hpos
      exact hresult x hx (k + 1) (by simpa using hk) (by omega)
    · intro x hx
      obtain ⟨y, hy, rfl⟩ := List.mem_map.mp hx
      have hmem := mem_placedAt.mp hy
      exact ⟨hquery _ hmem, hresult _ hmem 1 (by simp) rfl⟩

/-- A relation holds along the sequence if it holds between queries, between updates, and between the
two, as they are placed. -/
lemma pairwise_arrange {T : ℕ → ℕ → Prop} {queries : List (Placed O R)} {p : ℕ}
    {updates : List (ℕ × O)}
    (hsame : queries.Pairwise fun x y => x.pos = y.pos → T x.id y.id)
    (hlater : ∀ x ∈ queries, ∀ y ∈ queries, x.pos < y.pos → T x.id y.id)
    (hbefore : ∀ x ∈ queries, ∀ k u, updates[k]? = some u → x.pos ≤ p + k → T x.id u.1)
    (hafter : ∀ k u, updates[k]? = some u → ∀ y ∈ queries, p + k < y.pos → T u.1 y.id)
    (hupdates : updates.Pairwise fun u v => T u.1 v.1) :
    (obj.arrange queries s p updates).Pairwise fun a b => T a.1 b.1 := by
  have hplaced : ∀ p, (placedAt queries p).Pairwise fun a b => T a.1 b.1 := by
    intro p
    rw [placedAt, List.pairwise_map]
    refine (hsame.filter _).imp_of_mem ?_
    intro x y hx hy h
    have hxp : x.pos = p := by simpa using (List.mem_filter.mp hx).2
    have hyp : y.pos = p := by simpa using (List.mem_filter.mp hy).2
    exact h (hxp.trans hyp.symm)
  induction updates generalizing s p with
  | nil => exact hplaced p
  | cons u updates ih =>
    obtain ⟨i, op⟩ := u
    obtain ⟨hfirst, hrest⟩ := List.pairwise_cons.mp hupdates
    have htail := ih (s := (obj.apply op s).1) (p := p + 1)
      (fun x hx k u hu hpos => hbefore x hx (k + 1) u hu (by omega))
      (fun k u hu y hy hpos => hafter (k + 1) u hu y hy (by omega)) hrest
    rw [arrange, List.pairwise_append, List.pairwise_cons]
    refine ⟨hplaced p, ⟨?_, htail⟩, ?_⟩
    · intro y hy
      rcases mem_arrange.mp hy with ⟨k, -, hmem⟩ | ⟨k, hk, -⟩
      · exact hafter 0 (i, op) rfl _ hmem (by dsimp only; omega)
      · exact hfirst _ (List.mem_of_getElem? hk)
    · intro x hx y hy
      have hmem := mem_placedAt.mp hx
      rcases List.mem_cons.mp hy with rfl | hy
      · exact hbefore _ hmem 0 (i, op) rfl (Nat.le_refl _)
      · rcases mem_arrange.mp hy with ⟨k, -, hmem'⟩ | ⟨k, hk, -⟩
        · exact hlater _ hmem _ hmem' (by dsimp only; omega)
        · exact hbefore _ hmem (k + 1) _ hk (Nat.le_add_right _ _)

end SeqObject

/-! ## Timelines -/

/-- What is known along a run about the history `h`, in which each event has the number of updates that
had taken effect before it. -/
structure Timeline (obj : SeqObject S O R) (s : S) (h : List (Observed O R × ℕ))
    (updates : List (ℕ × O)) (queries : List (Placed O R)) : Prop where
  ordered : h.Pairwise fun a b => a.2 ≤ b.2
  bounded : ∀ x ∈ h, x.2 ≤ updates.length
  nodup : (updates.map Prod.fst ++ queries.map Placed.id).Nodup
  /-- An update takes effect after its call. -/
  update_called : ∀ q i op, updates[q]? = some (i, op) → ∃ c ≤ q, (.call i op, c) ∈ h
  /-- Each operation is called once. -/
  called_once : ∀ i op op' c c', (.call i op, c) ∈ h → (.call i op', c') ∈ h → op = op' ∧ c = c'
  /-- A query is placed after its call, where its result is right. -/
  query_called : ∀ x ∈ queries, ∃ c ≤ x.pos, (.call x.id x.op, c) ∈ h
  query_right : ∀ x ∈ queries, obj.IsQuery x.op ∧ x.pos ≤ updates.length ∧
    (obj.apply x.op (obj.stateAt s updates x.pos)).2 = x.result
  /-- What has returned is an update that had taken effect, or a query placed before its return. -/
  returned : ∀ i r d, (.ret i r, d) ∈ h →
    (∃ q op, updates[q]? = some (i, op) ∧ q < d ∧
      r = (obj.apply op (obj.stateAt s updates q)).2) ∨
    ∃ x ∈ queries, x.id = i ∧ x.result = r ∧ x.pos ≤ d
  /-- Queries with one place are in the order of their returns. -/
  queries_ordered : queries.Pairwise fun x y => ¬ Precedes (h.map Prod.fst) y.id x.id

/-- An operation that has returned before another was called has returned after no more updates. -/
lemma Precedes.exists_le {h : List (Observed O R × ℕ)} (hordered : h.Pairwise fun a b => a.2 ≤ b.2)
    {i j : ℕ} (hprec : Precedes (h.map Prod.fst) i j) :
    ∃ r d op c, (.ret i r, d) ∈ h ∧ (.call j op, c) ∈ h ∧ d ≤ c := by
  obtain ⟨r, op, hsub⟩ := hprec
  obtain ⟨l, hl, heq⟩ := List.sublist_map_iff.mp hsub
  obtain ⟨⟨x, d⟩, ⟨y, c⟩, rfl⟩ := List.length_eq_two.mp (by simpa using congrArg List.length heq.symm)
  simp only [List.map_cons, List.map_nil, List.cons.injEq, and_true] at heq
  obtain ⟨rfl, rfl⟩ := heq
  refine ⟨r, d, op, c, hl.subset (by simp), hl.subset (by simp), ?_⟩
  simpa using hordered.sublist hl

/-- Only a call adds to the order of the operations. -/
lemma Precedes.of_concat {h : List (Observed O R)} {e : Observed O R} {i j : ℕ}
    (hprec : Precedes (h ++ [e]) i j) : Precedes h i j ∨ ∃ op, e = .call j op := by
  obtain ⟨r, op, hsub⟩ := hprec
  obtain ⟨l₁, l₂, heq, h₁, h₂⟩ := List.sublist_append_iff.mp hsub
  rcases List.sublist_singleton.mp h₂ with rfl | rfl
  · rw [List.append_nil] at heq
    exact Or.inl ⟨r, op, heq ▸ h₁⟩
  · have hlast := congrArg List.getLast? heq
    rw [List.getLast?_concat] at hlast
    exact Or.inr ⟨op, (Option.some.inj hlast).symm⟩

/-- What precedes another operation has returned. -/
lemma Precedes.exists_ret {h : List (Observed O R)} {i j : ℕ} (hprec : Precedes h i j) :
    ∃ r, .ret i r ∈ h := by
  obtain ⟨r, op, hsub⟩ := hprec
  exact ⟨r, hsub.subset (List.mem_cons_self ..)⟩

namespace Timeline

variable {obj : SeqObject S O R} {s : S} {h : List (Observed O R × ℕ)} {updates : List (ℕ × O)}
  {queries : List (Placed O R)}

/-- An update has another number than any query. -/
lemma update_ne_query (ht : Timeline obj s h updates queries) {q : ℕ} {u : ℕ × O}
    (hu : updates[q]? = some u) {x : Placed O R} (hx : x ∈ queries) : u.1 ≠ x.id := by
  have hdisjoint := (List.nodup_append.mp ht.nodup).2.2
  exact hdisjoint _ (List.mem_map_of_mem (List.mem_of_getElem? hu)) _ (List.mem_map_of_mem hx)

lemma query_unique (ht : Timeline obj s h updates queries) {x y : Placed O R} (hx : x ∈ queries)
    (hy : y ∈ queries) (hid : x.id = y.id) : x = y :=
  List.inj_on_of_nodup_map (List.nodup_append.mp ht.nodup).2.1 hx hy hid

lemma update_unique (ht : Timeline obj s h updates queries) {q q' : ℕ} {i : ℕ} {op op' : O}
    (hq : updates[q]? = some (i, op)) (hq' : updates[q']? = some (i, op')) : q = q' ∧ op = op' := by
  have hnodup := (List.nodup_append.mp ht.nodup).1
  have hmap : (updates.map Prod.fst)[q]? = some i := by simp [hq]
  have hmap' : (updates.map Prod.fst)[q']? = some i := by simp [hq']
  have hlt : q < (updates.map Prod.fst).length := (List.getElem?_eq_some_iff.mp hmap).1
  obtain rfl : q = q' := (List.getElem?_inj hlt hnodup).mp (hmap.trans hmap'.symm)
  exact ⟨rfl, (Prod.mk.inj (Option.some.inj (hq.symm.trans hq'))).2⟩

/-- An update takes effect before it returns. -/
lemma update_returned (ht : Timeline obj s h updates queries) {q i : ℕ} {op : O}
    (hq : updates[q]? = some (i, op)) {r : R} {d : ℕ} (hret : (.ret i r, d) ∈ h) :
    q < d ∧ r = (obj.apply op (obj.stateAt s updates q)).2 := by
  rcases ht.returned i r d hret with ⟨q', op', hq', hlt, hr⟩ | ⟨x, hx, hid, -⟩
  · obtain ⟨rfl, rfl⟩ := ht.update_unique hq hq'
    exact ⟨hlt, hr⟩
  · exact absurd hid.symm (ht.update_ne_query hq hx)

/-- A query is placed before it returns. -/
lemma query_returned (ht : Timeline obj s h updates queries) {x : Placed O R} (hx : x ∈ queries)
    {r : R} {d : ℕ} (hret : (.ret x.id r, d) ∈ h) : x.pos ≤ d := by
  rcases ht.returned x.id r d hret with ⟨q, op, hq, -⟩ | ⟨y, hy, hid, -, hpos⟩
  · exact absurd rfl (ht.update_ne_query hq hx)
  · exact ht.query_unique hx hy hid.symm ▸ hpos

/-! ### Timelines grow -/

lemma nil (obj : SeqObject S O R) (s : S) : Timeline obj s [] [] [] where
  ordered := .nil
  bounded := by simp
  nodup := by simp
  update_called := by simp
  called_once := by simp
  query_called := by simp
  query_right := by simp
  returned := by simp
  queries_ordered := .nil

/-- An event that is appended comes after as many updates as there are. -/
lemma ordered_concat (ht : Timeline obj s h updates queries) (e : Observed O R) :
    (h ++ [(e, updates.length)]).Pairwise fun a b => a.2 ≤ b.2 := by
  refine List.pairwise_append.mpr ⟨ht.ordered, List.pairwise_singleton _ _, ?_⟩
  intro a ha b hb
  obtain rfl := List.mem_singleton.mp hb
  exact ht.bounded a ha

lemma bounded_concat (ht : Timeline obj s h updates queries) (e : Observed O R) :
    ∀ x ∈ h ++ [(e, updates.length)], x.2 ≤ updates.length := by
  intro x hx
  rcases List.mem_append.mp hx with hx | hx
  · exact ht.bounded x hx
  · obtain rfl := List.mem_singleton.mp hx
    exact Nat.le_refl _

/-- An operation is called. -/
lemma call (ht : Timeline obj s h updates queries) {i : ℕ} (op : O)
    (hfresh : ∀ op' c, (.call i op', c) ∉ h) :
    Timeline obj s (h ++ [(.call i op, updates.length)]) updates queries where
  ordered := ht.ordered_concat _
  bounded := ht.bounded_concat _
  nodup := ht.nodup
  update_called := by
    intro q j op' hq
    obtain ⟨c, hle, hc⟩ := ht.update_called q j op' hq
    exact ⟨c, hle, List.mem_append_left _ hc⟩
  called_once := by
    intro j op₁ op₂ c₁ c₂ hcall₁ hcall₂
    simp only [List.mem_append, List.mem_singleton, Prod.mk.injEq, Observed.call.injEq] at hcall₁ hcall₂
    rcases hcall₁ with hold₁ | ⟨⟨rfl, rfl⟩, rfl⟩
    · rcases hcall₂ with hold₂ | ⟨⟨rfl, rfl⟩, rfl⟩
      · exact ht.called_once j _ _ _ _ hold₁ hold₂
      · exact absurd hold₁ (hfresh _ _)
    · rcases hcall₂ with hold₂ | ⟨⟨-, rfl⟩, rfl⟩
      · exact absurd hold₂ (hfresh _ _)
      · exact ⟨rfl, rfl⟩
  query_called := by
    intro x hx
    obtain ⟨c, hle, hc⟩ := ht.query_called x hx
    exact ⟨c, hle, List.mem_append_left _ hc⟩
  query_right := ht.query_right
  returned := by
    intro j r d hret
    rcases List.mem_append.mp hret with hret | hret
    · exact ht.returned j r d hret
    · simp at hret
  queries_ordered := by
    refine ht.queries_ordered.imp_of_mem ?_
    intro x y hx _ hnot hprec
    rw [List.map_append] at hprec
    rcases hprec.of_concat with hprec | ⟨op', heq⟩
    · exact hnot hprec
    · obtain ⟨rfl, -⟩ := Observed.call.inj heq
      obtain ⟨c, -, hc⟩ := ht.query_called x hx
      exact hfresh _ _ hc

/-- An operation that is neither among the updates nor among the queries has not returned. -/
lemma not_returned (ht : Timeline obj s h updates queries) {i : ℕ}
    (hnew : i ∉ updates.map Prod.fst ++ queries.map Placed.id) (r : R) (d : ℕ) :
    (.ret i r, d) ∉ h := by
  intro hret
  refine hnew (List.mem_append.mpr ?_)
  rcases ht.returned i r d hret with ⟨q, op, hq, -⟩ | ⟨x, hx, rfl, -⟩
  · exact Or.inl (List.mem_map.mpr ⟨_, List.mem_of_getElem? hq, rfl⟩)
  · exact Or.inr (List.mem_map_of_mem hx)

/-- An update takes effect. -/
lemma update (ht : Timeline obj s h updates queries) {i : ℕ} {op : O} {c : ℕ}
    (hcall : (.call i op, c) ∈ h) (hnew : i ∉ updates.map Prod.fst ++ queries.map Placed.id) :
    Timeline obj s h (updates ++ [(i, op)]) queries where
  ordered := ht.ordered
  bounded := by
    intro x hx
    have hle := ht.bounded x hx
    rw [List.length_append, List.length_singleton]
    omega
  nodup := by
    have hperm : ((updates ++ [(i, op)]).map Prod.fst ++ queries.map Placed.id).Perm
        (i :: (updates.map Prod.fst ++ queries.map Placed.id)) := by
      rw [List.map_append, List.map_singleton, List.append_assoc]
      exact List.perm_middle
    exact hperm.nodup_iff.mpr (List.nodup_cons.mpr ⟨hnew, ht.nodup⟩)
  update_called := by
    intro q j op' hq
    rcases Nat.lt_or_ge q updates.length with hlt | hge
    · rw [List.getElem?_append_left hlt] at hq
      exact ht.update_called q j op' hq
    · rw [List.getElem?_append_right hge] at hq
      obtain ⟨_, heq⟩ := List.getElem?_eq_some_iff.mp hq
      rw [List.getElem_singleton] at heq
      obtain ⟨rfl, rfl⟩ := Prod.mk.inj heq
      exact ⟨c, Nat.le_trans (ht.bounded _ hcall) hge, hcall⟩
  called_once := ht.called_once
  query_called := ht.query_called
  query_right := by
    intro x hx
    obtain ⟨hisQuery, hpos, hresult⟩ := ht.query_right x hx
    refine ⟨hisQuery, Nat.le_trans hpos (by simp), ?_⟩
    rwa [SeqObject.stateAt_append_of_le hpos]
  returned := by
    intro j r d hmem
    rcases ht.returned j r d hmem with ⟨q, op', hq, hlt, hr⟩ | hx
    · have hlength : q < updates.length := (List.getElem?_eq_some_iff.mp hq).1
      refine Or.inl ⟨q, op', ?_, hlt, ?_⟩
      · rwa [List.getElem?_append_left hlength]
      · rwa [SeqObject.stateAt_append_of_le (Nat.le_of_lt hlength)]
    · exact Or.inr hx
  queries_ordered := ht.queries_ordered

/-- A return does not add to the order of the operations. -/
lemma not_precedes_concat {i j k : ℕ} {r : R} {d : ℕ} (h : List (Observed O R × ℕ))
    (hnot : ¬ Precedes (h.map Prod.fst) i j) :
    ¬ Precedes ((h ++ [(Observed.ret k r, d)]).map Prod.fst) i j := by
  intro hprec
  rw [List.map_append] at hprec
  rcases hprec.of_concat with hprec | ⟨op, heq⟩
  · exact hnot hprec
  · cases heq

/-- An update that has taken effect returns. -/
lemma ret_update (ht : Timeline obj s h updates queries) {q i : ℕ} {op : O}
    (hq : updates[q]? = some (i, op)) :
    Timeline obj s (h ++ [(.ret i (obj.apply op (obj.stateAt s updates q)).2, updates.length)])
      updates queries where
  ordered := ht.ordered_concat _
  bounded := ht.bounded_concat _
  nodup := ht.nodup
  update_called := by
    intro q j op' hq
    obtain ⟨c, hle, hc⟩ := ht.update_called q j op' hq
    exact ⟨c, hle, List.mem_append_left _ hc⟩
  called_once := by
    intro j op₁ op₂ c₁ c₂ hcall₁ hcall₂
    exact ht.called_once j _ _ _ _ (by simpa using hcall₁) (by simpa using hcall₂)
  query_called := by
    intro x hx
    obtain ⟨c, hle, hc⟩ := ht.query_called x hx
    exact ⟨c, hle, List.mem_append_left _ hc⟩
  query_right := ht.query_right
  returned := by
    intro j r d hret
    rcases List.mem_append.mp hret with hret | hret
    · exact ht.returned j r d hret
    · obtain ⟨heq, rfl⟩ := Prod.mk.inj (List.mem_singleton.mp hret)
      obtain ⟨rfl, rfl⟩ := Observed.ret.inj heq
      exact Or.inl ⟨q, op, hq, (List.getElem?_eq_some_iff.mp hq).1, rfl⟩
  queries_ordered := ht.queries_ordered.imp fun hnot => not_precedes_concat h hnot

/-- A query returns with a result that was right after `p` updates. -/
lemma ret_query (ht : Timeline obj s h updates queries) {i p c : ℕ} {op : O}
    (hcall : (.call i op, c) ∈ h) (hnew : i ∉ updates.map Prod.fst ++ queries.map Placed.id)
    (hop : obj.IsQuery op) (hc : c ≤ p) (hp : p ≤ updates.length) {r : R}
    (hr : (obj.apply op (obj.stateAt s updates p)).2 = r) :
    Timeline obj s (h ++ [(.ret i r, updates.length)]) updates (queries ++ [⟨i, op, r, p⟩]) where
  ordered := ht.ordered_concat _
  bounded := ht.bounded_concat _
  nodup := by
    rw [List.map_append, List.map_singleton, ← List.append_assoc]
    exact List.nodup_append_comm.mp (List.nodup_cons.mpr ⟨hnew, ht.nodup⟩)
  update_called := by
    intro q j op' hq
    obtain ⟨c, hle, hc⟩ := ht.update_called q j op' hq
    exact ⟨c, hle, List.mem_append_left _ hc⟩
  called_once := by
    intro j op₁ op₂ c₁ c₂ hcall₁ hcall₂
    exact ht.called_once j _ _ _ _ (by simpa using hcall₁) (by simpa using hcall₂)
  query_called := by
    intro x hx
    rcases List.mem_append.mp hx with hx | hx
    · obtain ⟨c, hle, hc⟩ := ht.query_called x hx
      exact ⟨c, hle, List.mem_append_left _ hc⟩
    · obtain rfl := List.mem_singleton.mp hx
      exact ⟨c, hc, List.mem_append_left _ hcall⟩
  query_right := by
    intro x hx
    rcases List.mem_append.mp hx with hx | hx
    · exact ht.query_right x hx
    · obtain rfl := List.mem_singleton.mp hx
      exact ⟨hop, hp, hr⟩
  returned := by
    intro j r' d hret
    rcases List.mem_append.mp hret with hret | hret
    · rcases ht.returned j r' d hret with hupdate | ⟨x, hx, hreturned⟩
      · exact Or.inl hupdate
      · exact Or.inr ⟨x, List.mem_append_left _ hx, hreturned⟩
    · obtain ⟨heq, rfl⟩ := Prod.mk.inj (List.mem_singleton.mp hret)
      obtain ⟨rfl, rfl⟩ := Observed.ret.inj heq
      exact Or.inr ⟨_, List.mem_append_right _ (List.mem_singleton_self _), rfl, rfl, hp⟩
  queries_ordered := by
    refine List.pairwise_append.mpr ⟨?_, List.pairwise_singleton _ _, ?_⟩
    · exact ht.queries_ordered.imp fun hnot => not_precedes_concat h hnot
    · intro x _ y hy
      obtain rfl := List.mem_singleton.mp hy
      refine not_precedes_concat h fun hprec => ?_
      obtain ⟨r', hret⟩ := hprec.exists_ret
      obtain ⟨⟨e, d⟩, hmem, rfl⟩ := List.mem_map.mp hret
      exact ht.not_returned hnew r' d hmem

/-- **Histories with a timeline are linearizable.** -/
theorem linearizable (ht : Timeline obj s h updates queries) :
    obj.Linearizable s (h.map Prod.fst) := by
  have hcall : ∀ {x op c}, x ∈ queries → (.call x.id op, c) ∈ h → c ≤ x.pos := by
    intro x op c hx hmem
    obtain ⟨c', hle, hmem'⟩ := ht.query_called x hx
    exact (ht.called_once _ _ _ _ _ hmem hmem').2 ▸ hle
  have hcallu : ∀ {q u op c}, updates[q]? = some u → (.call u.1 op, c) ∈ h → c ≤ q := by
    intro q u op c hu hmem
    obtain ⟨c', hle, hmem'⟩ := ht.update_called q u.1 u.2 hu
    exact (ht.called_once _ _ _ _ _ hmem hmem').2 ▸ hle
  refine ⟨obj.arrange queries s 0 updates, ?_, ?_, ?_, ?_, ?_⟩
  · refine SeqObject.legal_arrange (fun x hx => (ht.query_right x hx).1) ?_
    intro x hx k _ hpos
    obtain rfl : x.pos = k := by simpa using hpos
    exact (ht.query_right x hx).2.2
  · rw [List.Nodup, List.pairwise_map]
    have hnodup := List.nodup_append.mp ht.nodup
    refine SeqObject.pairwise_arrange (T := fun i j => i ≠ j) ?_ ?_ ?_ ?_ ?_
    · refine (List.pairwise_map.mp hnodup.2.1).imp ?_
      intro x y hne _
      exact hne
    · rintro x hx y hy hlt hid
      exact absurd (ht.query_unique hx hy hid ▸ hlt) (Nat.lt_irrefl _)
    · intro x hx k u hu _ hid
      exact ht.update_ne_query hu hx hid.symm
    · intro k u hu y hy _ hid
      exact ht.update_ne_query hu hy hid
    · exact List.pairwise_map.mp hnodup.1
  · intro x hx
    rcases SeqObject.mem_arrange.mp hx with ⟨k, -, hmem⟩ | ⟨k, hk, -⟩
    · obtain ⟨c, -, hc⟩ := ht.query_called _ hmem
      exact List.mem_map_of_mem hc
    · obtain ⟨c, -, hc⟩ := ht.update_called k _ _ hk
      exact List.mem_map_of_mem hc
  · intro i r hmem
    obtain ⟨⟨_, d⟩, hret, rfl⟩ := List.mem_map.mp hmem
    rcases ht.returned i r d hret with ⟨q, op, hq, -, hr⟩ | ⟨x, hx, rfl, rfl, -⟩
    · exact ⟨op, SeqObject.mem_arrange.mpr (Or.inr ⟨q, hq, hr⟩)⟩
    · refine ⟨x.op, SeqObject.mem_arrange.mpr (Or.inl ⟨x.pos, (ht.query_right x hx).2.1, ?_⟩)⟩
      simpa using hx
  · refine SeqObject.pairwise_arrange (T := fun i j => ¬ Precedes (h.map Prod.fst) j i)
      ?_ ?_ ?_ ?_ ?_
    · refine ht.queries_ordered.imp ?_
      intro x y hnot _
      exact hnot
    · intro x hx y hy hlt hprec
      obtain ⟨r, d, op, c, hret, hc, hle⟩ := hprec.exists_le ht.ordered
      have h1 := ht.query_returned hy hret
      have h2 := hcall hx hc
      omega
    · intro x hx k u hu hpos hprec
      obtain ⟨r, d, op, c, hret, hc, hle⟩ := hprec.exists_le ht.ordered
      have h1 := (ht.update_returned hu hret).1
      have h2 := hcall hx hc
      omega
    · intro k u hu y hy hpos hprec
      obtain ⟨r, d, op, c, hret, hc, hle⟩ := hprec.exists_le ht.ordered
      have h1 := ht.query_returned hy hret
      have h2 := hcallu hu hc
      omega
    · rw [List.pairwise_iff_getElem]
      intro k l hk hl hkl hprec
      obtain ⟨r, d, op, c, hret, hc, hle⟩ := hprec.exists_le ht.ordered
      have h1 := (ht.update_returned (List.getElem?_eq_getElem hl) hret).1
      have h2 := hcallu (List.getElem?_eq_getElem hk) hc
      omega

end Timeline

end Concurrency
