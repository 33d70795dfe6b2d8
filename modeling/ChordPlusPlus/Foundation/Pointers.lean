import ChordPlusPlus.Foundation.Arc
import Mathlib.Logic.Relation
import Mathlib.Logic.Function.Basic
import Mathlib.Data.List.Chain

/-!
# Successor pointers on a circle

Members of a set, placed on a circle by `pos`, point to successors by `succ : ι → Option ι`.
`Pointers.Path p s` says that following the pointers from `p` leads to `s` inside the arc from `p`
up to `s`: every hop but the last one lands strictly between its start and `s`.

The arc condition is what survives when a pointer `n → s` is shortened to `n → x` with `x` strictly
between `n` and `s` and a path from `x` to `s`: all paths stay paths, and everything that could be
reached stays reachable (`Path.update`, `reach_update`).  A path from a member to itself is a cycle
that visits its members in clockwise order and goes round once (`Path.exists_visits`).
-/

namespace Pointers

variable {ι α : Type*}

/-- One hop along the pointers. -/
def Hop (succ : ι → Option ι) (a b : ι) : Prop := succ a = some b

lemma Hop.det {succ : ι → Option ι} {a b c : ι} (hb : Hop succ a b) (hc : Hop succ a c) : b = c :=
  Option.some.inj (hb.symm.trans hc)

variable [LinearOrder α] (pos : ι → α)

/-- The pointers lead from `p` to `s` without leaving the arc from `p` up to `s`. -/
inductive Path (succ : ι → Option ι) : ι → ι → Prop
  | last {p s : ι} : succ p = some s → Path succ p s
  | step {p x s : ι} : succ p = some x → Arc.Open (pos p) (pos x) (pos s) → Path succ x s →
      Path succ p s

variable {pos} {succ succ' : ι → Option ι}

lemma Path.isSome {p s : ι} (h : Path pos succ p s) : succ p ≠ none := by
  cases h with
  | last h => rw [h]; exact Option.some_ne_none _
  | step h _ _ => rw [h]; exact Option.some_ne_none _

/-- A path ends at a member that some member points to. -/
lemma Path.exists_last {p s : ι} (h : Path pos succ p s) : ∃ q, succ q = some s := by
  induction h with
  | last h => exact ⟨_, h⟩
  | step _ _ _ ih => exact ih

/-- The last hop of a path starts at a member that the path leads to. -/
lemma Path.exists_hop {p s : ι} (h : Path pos succ p s) :
    ∃ q, Relation.ReflTransGen (Hop succ) p q ∧ Hop succ q s := by
  induction h with
  | last h => exact ⟨_, Relation.ReflTransGen.refl, h⟩
  | step h _ _ ih =>
    obtain ⟨q, hq, hop⟩ := ih
    exact ⟨q, Relation.ReflTransGen.head h hq, hop⟩

lemma Path.reach {p s : ι} (h : Path pos succ p s) :
    Relation.ReflTransGen (Hop succ) p s := by
  induction h with
  | last h => exact Relation.ReflTransGen.single h
  | step h _ _ ih => exact Relation.ReflTransGen.head h ih

/-- New pointers at members that had none keep every path. -/
lemma Path.mono (hmono : ∀ a b, succ a = some b → succ' a = some b) {p s : ι}
    (h : Path pos succ p s) : Path pos succ' p s := by
  induction h with
  | last h => exact Path.last (hmono _ _ h)
  | step h hopen _ ih => exact Path.step (hmono _ _ h) hopen ih

lemma reach_mono (hmono : ∀ a b, succ a = some b → succ' a = some b) {p s : ι}
    (h : Relation.ReflTransGen (Hop succ) p s) : Relation.ReflTransGen (Hop succ') p s :=
  Relation.ReflTransGen.mono hmono _ _ h

/-- Two paths join when the middle point lies on the way to the end. -/
lemma Path.append {x s t : ι} (h : Path pos succ x s) (hst : Path pos succ s t)
    (hopen : Arc.Open (pos x) (pos s) (pos t)) : Path pos succ x t := by
  induction h with
  | last h => exact Path.step h hopen hst
  | step h hxs _ ih => exact Path.step h (hopen.of_head hxs) (ih hst (hxs.tail hopen))

/-- Pointers to the next member lead from every member of a ring to every other one. -/
lemma Path.of_isNext {ring : Finset ι} (hpos : Function.Injective pos)
    (hnext : ∀ m ∈ ring, ∃ s, succ m = some s ∧ Arc.IsNext pos ring m s) {p t : ι} (hp : p ∈ ring)
    (ht : t ∈ ring) : Path pos succ p t := by
  -- By induction on the number of members strictly between `p` and `t`.
  induction hk : (ring.filter fun x => Arc.Open (pos p) (pos x) (pos t)).card
    using Nat.strong_induction_on generalizing p with
  | _ k ih =>
    subst hk
    obtain ⟨s, hs, hps⟩ := hnext p hp
    by_cases hst : pos s = pos t
    · exact Path.last (hpos hst ▸ hs)
    · have hopen : Arc.Open (pos p) (pos s) (pos t) := by
        have hout := hps.between t ht
        grind [Arc.Open]
      exact Path.step hs hopen (ih _ (Arc.card_ahead_lt hps.right_mem hopen) hps.right_mem rfl)

section Update

variable [DecidableEq ι] {n x s : ι}

/-- A path that does not start at `n` and whose arc misses `n` does not use the pointer of `n`. -/
lemma Path.update_of_avoid {y s : ι} (h : Path pos succ y s) (hne : y ≠ n)
    (hout : ¬ Arc.Open (pos y) (pos n) (pos s)) (v : Option ι) :
    Path pos (Function.update succ n v) y s := by
  induction h with
  | last h => exact Path.last (by rw [Function.update_of_ne hne]; exact h)
  | @step y z s h hopen _ ih =>
    refine Path.step (by rw [Function.update_of_ne hne]; exact h) hopen (ih ?_ ?_)
    · rintro rfl
      exact hout hopen
    · intro hin
      exact hout (hopen.of_tail hin)

/-- Shortening one pointer along a path keeps every path. -/
lemma Path.update (hs : succ n = some s) (hx : Arc.Open (pos n) (pos x) (pos s))
    (hpath : Path pos succ x s) {p t : ι} (h : Path pos succ p t) :
    Path pos (Function.update succ n (some x)) p t := by
  have hxs : Path pos (Function.update succ n (some x)) x s := by
    refine hpath.update_of_avoid ?_ hx.not_tail _
    rintro rfl
    exact Arc.not_open_left _ _ hx
  induction h with
  | @last p t h =>
    by_cases hp : p = n
    · subst hp
      obtain rfl : s = t := Option.some.inj (hs.symm.trans h)
      exact Path.step (Function.update_self ..) hx hxs
    · exact Path.last (by rw [Function.update_of_ne hp]; exact h)
  | @step p y t h hopen _ ih =>
    by_cases hp : p = n
    · subst hp
      obtain rfl : s = y := Option.some.inj (hs.symm.trans h)
      exact Path.step (Function.update_self ..) (hopen.of_head hx) (hxs.append ih (hx.tail hopen))
    · exact Path.step (by rw [Function.update_of_ne hp]; exact h) hopen ih

/-- Shortening one pointer along a path keeps what can be reached from a member. -/
lemma reach_update (hs : succ n = some s) (hx : Arc.Open (pos n) (pos x) (pos s))
    (hpath : Path pos succ x s) {a b : ι} (h : Relation.ReflTransGen (Hop succ) a b) :
    Relation.ReflTransGen (Hop (Function.update succ n (some x))) a b := by
  induction h using Relation.ReflTransGen.head_induction_on with
  | refl => exact Relation.ReflTransGen.refl
  | @head a c hhop _ ih =>
    by_cases ha : a = n
    · subst ha
      obtain rfl : s = c := Option.some.inj (hs.symm.trans hhop)
      have hxs : Path pos (Function.update succ a (some x)) x s := hpath.update hs hx hpath
      exact Relation.ReflTransGen.head (Function.update_self ..) (hxs.reach.trans ih)
    · exact Relation.ReflTransGen.head
        (show Function.update succ n (some x) a = some c by
          rw [Function.update_of_ne ha]; exact hhop) ih

end Update

/-- `p`, then the members of `l`, then `s`: the members visited on the way from `p` to `s`. -/
structure Visits (pos : ι → α) (succ : ι → Option ι) (p s : ι) (l : List ι) : Prop where
  /-- Each of them points to the next one. -/
  chain : List.IsChain (Hop succ) (p :: (l ++ [s]))
  /-- They lie strictly inside the arc. -/
  inside : ∀ y ∈ l, Arc.Open (pos p) (pos y) (pos s)
  /-- Each of them is met before the next one. -/
  sorted : l.Pairwise fun y z => Arc.Open (pos p) (pos y) (pos z)
  /-- A hop ends at `s` or before it. -/
  ahead : ∀ y ∈ p :: l, ∀ z, Hop succ y z → z = s ∨ Arc.Open (pos y) (pos z) (pos s)
  /-- No hop passes over one of them. -/
  between : ∀ y ∈ p :: l, ∀ z, Hop succ y z → ∀ x ∈ p :: l, ¬ Arc.Open (pos y) (pos x) (pos z)

/-- A hop in front of a path, strictly inside the arc. -/
lemma Visits.cons {p x s : ι} {l : List ι} (hx : succ p = some x)
    (hopen : Arc.Open (pos p) (pos x) (pos s)) (h : Visits pos succ x s l) :
    Visits pos succ p s (x :: l) where
  chain := List.IsChain.cons_cons hx h.chain
  inside := by
    intro y hy
    rcases List.mem_cons.mp hy with rfl | hy
    · exact hopen
    · exact hopen.of_tail (h.inside y hy)
  sorted := by
    rw [List.pairwise_cons]
    constructor
    · intro y hy
      have hy' := h.inside y hy
      grind [Arc.Open]
    · apply h.sorted.imp_of_mem
      intro y z hy hz hyz
      have hy' := h.inside y hy
      have hz' := h.inside z hz
      grind [Arc.Open]
  ahead := by
    intro y hy z hz
    rcases List.mem_cons.mp hy with rfl | hy
    · obtain rfl := Hop.det hx hz
      exact Or.inr hopen
    · exact h.ahead y hy z hz
  between := by
    -- The new hop passes over nothing, and the old hops do not pass over the new member.
    intro y hy z hz v hv
    have hin : ∀ w ∈ x :: l, w = x ∨ Arc.Open (pos x) (pos w) (pos s) := by
      intro w hw
      rcases List.mem_cons.mp hw with rfl | hw
      · exact Or.inl rfl
      · exact Or.inr (h.inside w hw)
    rcases List.mem_cons.mp hy with rfl | hyl
    · obtain rfl := Hop.det hx hz
      rcases List.mem_cons.mp hv with rfl | hvl
      · exact Arc.not_open_left _ _
      · rcases hin v hvl with rfl | hv'
        · exact Arc.not_open_right _ _
        · grind [Arc.Open]
    · rcases List.mem_cons.mp hv with rfl | hvl
      · have hy' : Arc.Open (pos v) (pos y) (pos s) := by
          rcases hin y hyl with rfl | hy'
          · exact hopen
          · exact hopen.of_tail hy'
        rcases h.ahead y hyl z hz with rfl | hz'
        · exact hy'.not_tail
        · exact fun hvz => hy'.not_tail (hz'.of_head hvz)
      · exact h.between y hyl z hz v hvl

/-- The members visited by a path, in order. -/
lemma Path.exists_visits {p s : ι} (h : Path pos succ p s) : ∃ l, Visits pos succ p s l := by
  induction h with
  | @last p s h =>
    refine ⟨[], by simpa [Hop] using h, by simp, List.Pairwise.nil, ?_, ?_⟩
    · intro y hy z hz
      obtain rfl : y = p := by simpa using hy
      exact Or.inl (Hop.det hz h)
    · intro y hy z _ x hx
      obtain rfl : y = p := by simpa using hy
      obtain rfl : x = y := by simpa using hx
      exact Arc.not_open_left _ _
  | step h hopen _ ih =>
    obtain ⟨l, hl⟩ := ih
    exact ⟨_, hl.cons h hopen⟩

/-- A hop from a member of a chain lands on the rest of the chain. -/
lemma mem_of_hop {a b : ι} {l : List ι} (hchain : List.IsChain (Hop succ) (a :: (l ++ [b])))
    {y z : ι} (hy : y ∈ a :: l) (hz : Hop succ y z) : z ∈ l ++ [b] := by
  induction l generalizing a with
  | nil =>
    obtain rfl : y = a := by simpa using hy
    have hb : Hop succ y b := by simpa using hchain
    simp [hz.det hb]
  | cons c l ih =>
    obtain ⟨hac, hrest⟩ := List.isChain_cons_cons.mp hchain
    rcases List.mem_cons.mp hy with rfl | hy
    · rw [hz.det hac]
      exact List.mem_cons_self
    · exact List.mem_cons_of_mem _ (ih hrest hy)

/-- A chain leads from its start to each of its members, and on to its end. -/
lemma reach_of_mem_chain {a b : ι} {l : List ι}
    (hchain : List.IsChain (Hop succ) (a :: (l ++ [b]))) {n : ι} (hn : n ∈ a :: l) :
    Relation.ReflTransGen (Hop succ) a n ∧ Relation.TransGen (Hop succ) n b := by
  induction l generalizing a n with
  | nil =>
    obtain rfl : n = a := by simpa using hn
    exact ⟨Relation.ReflTransGen.refl, Relation.TransGen.single (by simpa using hchain)⟩
  | cons c l ih =>
    obtain ⟨hac, hrest⟩ := List.isChain_cons_cons.mp hchain
    rcases List.mem_cons.mp hn with rfl | hn
    · exact ⟨Relation.ReflTransGen.refl,
        Relation.TransGen.head hac (ih hrest List.mem_cons_self).2⟩
    · obtain ⟨hfrom, hto⟩ := ih hrest hn
      exact ⟨Relation.ReflTransGen.head hac hfrom, hto⟩

/-- A closed chain leads from each of its members back to it. -/
lemma cycle_of_mem_chain {b : ι} {l : List ι}
    (hchain : List.IsChain (Hop succ) (b :: (l ++ [b]))) {n : ι} (hn : n ∈ b :: l) :
    Relation.TransGen (Hop succ) n n := by
  obtain ⟨hfrom, hto⟩ := reach_of_mem_chain hchain hn
  exact hto.trans_left hfrom

/-- Members reached from a closed chain lie on it. -/
lemma mem_of_reach {b : ι} {l : List ι} (hchain : List.IsChain (Hop succ) (b :: (l ++ [b])))
    {a c : ι} (ha : a ∈ b :: l) (h : Relation.ReflTransGen (Hop succ) a c) : c ∈ b :: l := by
  induction h with
  | refl => exact ha
  | tail _ hhop ih =>
    have hmem := mem_of_hop hchain ih hhop
    rw [List.mem_append, List.mem_singleton] at hmem
    exact List.mem_cons.mpr hmem.symm

/-- Each member of a closed chain is pointed to by one. -/
lemma exists_hop_of_mem_chain {b : ι} {l : List ι}
    (hchain : List.IsChain (Hop succ) (b :: (l ++ [b]))) {n : ι} (hn : n ∈ b :: l) :
    ∃ q ∈ b :: l, Hop succ q n := by
  obtain ⟨q, hq, hhop⟩ := Relation.TransGen.tail'_iff.mp (cycle_of_mem_chain hchain hn)
  exact ⟨q, mem_of_reach hchain hn hq, hhop⟩

/-- When no two members point to one member, whatever reaches a closed chain lies on it. -/
lemma mem_of_reach_of_injective {b : ι} {l : List ι}
    (hchain : List.IsChain (Hop succ) (b :: (l ++ [b])))
    (hinj : ∀ x y z, Hop succ x z → Hop succ y z → x = y) {a c : ι} (hc : c ∈ b :: l)
    (h : Relation.ReflTransGen (Hop succ) a c) : a ∈ b :: l := by
  induction h using Relation.ReflTransGen.head_induction_on with
  | refl => exact hc
  | head hhop _ ih =>
    obtain ⟨q, hq, hq'⟩ := exists_hop_of_mem_chain hchain ih
    rwa [hinj _ _ _ hhop hq']

/-- A member on a cycle is reached back from whatever it reaches. -/
lemma reach_back_of_cycle {x b : ι} (hcycle : Relation.TransGen (Hop succ) x x)
    (h : Relation.ReflTransGen (Hop succ) x b) : Relation.ReflTransGen (Hop succ) b x := by
  induction h using Relation.ReflTransGen.head_induction_on with
  | refl => exact Relation.ReflTransGen.refl
  | @head x y hxy _ ih =>
    obtain ⟨y', hy', hback⟩ := Relation.TransGen.head'_iff.mp hcycle
    obtain rfl := hxy.det hy'
    exact (ih (Relation.TransGen.tail' hback hxy)).trans hback

end Pointers
