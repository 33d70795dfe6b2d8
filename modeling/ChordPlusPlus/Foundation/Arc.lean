import Mathlib.Order.Basic
import Mathlib.Data.Finset.Card
import Mathlib.Data.Finset.Max
import Mathlib.Data.Finset.Insert

/-!
# Clockwise arcs over a linear order

A linear order closed into a circle by letting its largest element be followed by its smallest.
`Arc.Open a v b` says that `v` is met strictly between `a` and `b` when walking clockwise from
`a`, and `Arc.HalfOpen a v b` also admits `v = b`.  The degenerate arc from a point to itself is
the whole circle: without the point for `Open`, with it for `HalfOpen`.

The second half places the members of a finite set on the circle by a map `pos`.
`Arc.IsNext pos ring p s` says that `s` follows `p` among the members, and
`Arc.Owns pos ring id s` that `s` is the first member met at or after the point `id`.
-/

namespace Arc

section Points

variable {α : Type*} [LinearOrder α]

/-- `v` lies strictly inside the clockwise arc from `a` to `b`. -/
def Open (a v b : α) : Prop :=
  if a < b then a < v ∧ v < b else a < v ∨ v < b

/-- `v` lies in the clockwise arc from `a` to `b`, the end `b` included. -/
def HalfOpen (a v b : α) : Prop :=
  if a < b then a < v ∧ v ≤ b else a < v ∨ v ≤ b

instance (a v b : α) : Decidable (Open a v b) :=
  inferInstanceAs (Decidable (if a < b then a < v ∧ v < b else a < v ∨ v < b))

instance (a v b : α) : Decidable (HalfOpen a v b) :=
  inferInstanceAs (Decidable (if a < b then a < v ∧ v ≤ b else a < v ∨ v ≤ b))

/-- The open arc from a point to itself misses only that point. -/
lemma open_self_iff {a v : α} : Open a v a ↔ v ≠ a := by
  grind [Open]

/-- The half-open arc from a point to itself is the whole circle. -/
lemma halfOpen_self (a v : α) : HalfOpen a v a := by
  grind [HalfOpen]

lemma not_open_left (a b : α) : ¬ Open a a b := by
  grind [Open]

lemma not_open_right (a b : α) : ¬ Open a b b := by
  grind [Open]

lemma Open.ne_left {a v b : α} (h : Open a v b) : v ≠ a := by
  grind [Open]

lemma Open.ne_right {a v b : α} (h : Open a v b) : v ≠ b := by
  grind [Open]

/-- Cutting an open arc at one of its points keeps the far part inside it. -/
lemma Open.of_tail {a x b v : α} (hx : Open a x b) (hv : Open x v b) : Open a v b := by
  grind [Open]

/-- Cutting an open arc at one of its points keeps the near part inside it. -/
lemma Open.of_head {a x b v : α} (hx : Open a x b) (hv : Open a v x) : Open a v b := by
  grind [Open]

/-- Two points of an arc, the first before the second: the second lies beyond the first. -/
lemma Open.tail {a x y b : α} (hx : Open a x y) (hy : Open a y b) : Open x y b := by
  grind [Open]

/-- A point of the near part of a cut arc is not met again on the far part. -/
lemma Open.not_tail {a x b : α} (h : Open a x b) : ¬ Open x a b := by
  grind [Open]

/-- Of two distinct points, one is met before the other on the way to `b`. -/
lemma open_or_open {a x b : α} (hax : a ≠ x) : Open a x b ∨ x = b ∨ Open x a b := by
  grind [Open]

/-- Every point is either strictly inside the arc from `a` to `id`, or at or beyond `id`. -/
lemma halfOpen_of_not_open {a s id : α} (h : ¬ Open a s id) : HalfOpen a id s := by
  grind [Open, HalfOpen]

end Points

section Members

variable {ι α : Type*} [LinearOrder α] (pos : ι → α)

/-- `s` follows `p` clockwise among the members of `ring`.  In a one-member ring the member
follows itself. -/
structure IsNext (ring : Finset ι) (p s : ι) : Prop where
  left_mem : p ∈ ring
  right_mem : s ∈ ring
  between : ∀ x ∈ ring, ¬ Open (pos p) (pos x) (pos s)

/-- `s` is the member of `ring` responsible for the point `id`: `id` lies in the half-open arc
that ends at `s` and begins at the member before it. -/
def Owns (ring : Finset ι) (id : α) (s : ι) : Prop :=
  ∃ p, IsNext pos ring p s ∧ HalfOpen (pos p) id (pos s)

variable {pos} {ring : Finset ι}

lemma Owns.mem {id : α} {s : ι} (h : Owns pos ring id s) : s ∈ ring := by
  obtain ⟨p, hp, -⟩ := h
  exact hp.right_mem

/-- A member has one successor. -/
lemma IsNext.right_unique (hpos : Function.Injective pos) {p s t : ι}
    (hs : IsNext pos ring p s) (ht : IsNext pos ring p t) : s = t := by
  have h1 := hs.between t ht.right_mem
  have h2 := ht.between s hs.right_mem
  apply hpos
  grind [Open]

/-- A member has one predecessor. -/
lemma IsNext.left_unique (hpos : Function.Injective pos) {p q s : ι}
    (hp : IsNext pos ring p s) (hq : IsNext pos ring q s) : p = q := by
  have h1 := hp.between q hq.left_mem
  have h2 := hq.between p hp.left_mem
  apply hpos
  grind [Open]

/-- The point lies between every member and the member responsible for it. -/
lemma Owns.halfOpen {id : α} {s m : ι} (h : Owns pos ring id s) (hm : m ∈ ring) :
    HalfOpen (pos m) id (pos s) := by
  obtain ⟨p, hp, hin⟩ := h
  have hout := hp.between m hm
  grind [Open, HalfOpen]

/-- At most one member is responsible for a point. -/
lemma Owns.unique (hpos : Function.Injective pos) {id : α} {s t : ι}
    (hs : Owns pos ring id s) (ht : Owns pos ring id t) : s = t := by
  obtain ⟨p, hp, hps⟩ := hs
  obtain ⟨q, hq, hqt⟩ := ht
  have h1 := hp.between t hq.right_mem
  have h2 := hq.between s hp.right_mem
  have h3 := hp.between q hq.left_mem
  have h4 := hq.between p hp.left_mem
  apply hpos
  grind [Open, HalfOpen]

/-- The first member at or after a point, counted from the least member on when there is none. -/
lemma exists_first (hne : ring.Nonempty) (id : α) :
    ∃ s ∈ ring, (id ≤ pos s ∧ ∀ x ∈ ring, id ≤ pos x → pos s ≤ pos x) ∨
      ((∀ x ∈ ring, pos x < id) ∧ ∀ x ∈ ring, pos s ≤ pos x) := by
  by_cases h : (ring.filter fun x => id ≤ pos x).Nonempty
  · obtain ⟨s, hs, hmin⟩ := Finset.exists_min_image _ pos h
    rw [Finset.mem_filter] at hs
    refine ⟨s, hs.1, Or.inl ⟨hs.2, ?_⟩⟩
    intro x hx hid
    exact hmin x (Finset.mem_filter.mpr ⟨hx, hid⟩)
  · obtain ⟨s, hs, hmin⟩ := Finset.exists_min_image _ pos hne
    refine ⟨s, hs, Or.inr ⟨?_, hmin⟩⟩
    intro x hx
    by_contra hid
    exact h ⟨x, Finset.mem_filter.mpr ⟨hx, not_lt.mp hid⟩⟩

/-- The last member before a point, counted from the greatest member down when there is none. -/
lemma exists_last (hne : ring.Nonempty) (id : α) :
    ∃ p ∈ ring, (pos p < id ∧ ∀ x ∈ ring, pos x < id → pos x ≤ pos p) ∨
      ((∀ x ∈ ring, id ≤ pos x) ∧ ∀ x ∈ ring, pos x ≤ pos p) := by
  by_cases h : (ring.filter fun x => pos x < id).Nonempty
  · obtain ⟨p, hp, hmax⟩ := Finset.exists_max_image _ pos h
    rw [Finset.mem_filter] at hp
    refine ⟨p, hp.1, Or.inl ⟨hp.2, ?_⟩⟩
    intro x hx hid
    exact hmax x (Finset.mem_filter.mpr ⟨hx, hid⟩)
  · obtain ⟨p, hp, hmax⟩ := Finset.exists_max_image _ pos hne
    refine ⟨p, hp, Or.inr ⟨?_, hmax⟩⟩
    intro x hx
    by_contra hid
    exact h ⟨x, Finset.mem_filter.mpr ⟨hx, not_le.mp hid⟩⟩

/-- In a non-empty ring every point has a responsible member. -/
lemma exists_owns (hne : ring.Nonempty) (id : α) : ∃ s, Owns pos ring id s := by
  obtain ⟨s, hs, hfirst⟩ := @exists_first _ _ _ pos _ hne id
  obtain ⟨p, hp, hlast⟩ := @exists_last _ _ _ pos _ hne id
  refine ⟨s, p, ⟨hp, hs, ?_⟩, ?_⟩
  · intro x hx
    grind [Open]
  · grind [HalfOpen]

/-- Every member follows one. -/
lemma exists_isNext (hpos : Function.Injective pos) {s : ι} (hs : s ∈ ring) :
    ∃ p, IsNext pos ring p s := by
  obtain ⟨t, p, hp, hin⟩ := @exists_owns _ _ _ pos _ ⟨s, hs⟩ (pos s)
  have hout := hp.between s hs
  have hst : pos s = pos t := by
    grind [Open, HalfOpen]
  exact ⟨p, hpos hst ▸ hp⟩

/-- The last member before a point lies on the way to it from every other member. -/
lemma IsNext.open_of_halfOpen {p s m : ι} {id : α} (h : IsNext pos ring p s)
    (hid : HalfOpen (pos p) id (pos s)) (hm : m ∈ ring) (hne : pos p ≠ pos m) :
    Open (pos m) (pos p) id := by
  have hout := h.between m hm
  grind [Open, HalfOpen]

/-- No member lies between the last member before a point and the point. -/
lemma IsNext.not_open_of_halfOpen {p s m : ι} {id : α} (h : IsNext pos ring p s)
    (hid : HalfOpen (pos p) id (pos s)) (hm : m ∈ ring) : ¬ Open (pos p) (pos m) id := by
  have hout := h.between m hm
  grind [Open, HalfOpen]

section Insert

variable [DecidableEq ι] {p n s : ι}

/-- A new member inside an arc of the ring follows the member before it. -/
lemma IsNext.insert_left (h : IsNext pos ring p s) (hn : Open (pos p) (pos n) (pos s)) :
    IsNext pos (insert n ring) p n where
  left_mem := Finset.mem_insert_of_mem h.left_mem
  right_mem := Finset.mem_insert_self n ring
  between := by
    intro x hx hopen
    rcases Finset.mem_insert.mp hx with rfl | hx
    · exact hopen.ne_right rfl
    · exact h.between x hx (hn.of_head hopen)

/-- A new member inside an arc of the ring is followed by the member after it. -/
lemma IsNext.insert_right (h : IsNext pos ring p s) (hn : Open (pos p) (pos n) (pos s)) :
    IsNext pos (insert n ring) n s where
  left_mem := Finset.mem_insert_self n ring
  right_mem := Finset.mem_insert_of_mem h.right_mem
  between := by
    intro x hx hopen
    rcases Finset.mem_insert.mp hx with rfl | hx
    · exact hopen.ne_left rfl
    · exact h.between x hx (hn.of_tail hopen)

/-- A new member inside one arc of the ring leaves the other arcs alone. -/
lemma IsNext.insert_of_ne (hpos : Function.Injective pos) (h : IsNext pos ring p s)
    (hn : Open (pos p) (pos n) (pos s)) {q t : ι} (hqt : IsNext pos ring q t) (hne : q ≠ p) :
    IsNext pos (insert n ring) q t where
  left_mem := Finset.mem_insert_of_mem hqt.left_mem
  right_mem := Finset.mem_insert_of_mem hqt.right_mem
  between := by
    intro x hx hopen
    rcases Finset.mem_insert.mp hx with rfl | hx
    · -- On the way from `q` to the new member one passes `p`.
      have hout := h.between q hqt.left_mem
      have hqp : pos q ≠ pos p := fun heq => hne (hpos heq)
      have hpass : Open (pos q) (pos p) (pos x) := by
        grind [Open]
      exact hqt.between p h.left_mem (hopen.of_head hpass)
    · exact hqt.between x hx hopen

/-- What a new member inside the arc from `p` to `s` becomes responsible for: the part of the arc
before it, which `s` loses. -/
lemma owns_insert_iff (hpos : Function.Injective pos) (h : IsNext pos ring p s)
    (hn : Open (pos p) (pos n) (pos s)) {id : α} {m : ι} :
    Owns pos (insert n ring) id m ↔
      if m = n then HalfOpen (pos p) id (pos n)
      else Owns pos ring id m ∧ ¬ (m = s ∧ HalfOpen (pos p) id (pos n)) := by
  constructor
  · rintro ⟨q, hq, hin⟩
    split_ifs with hmn
    · subst hmn
      rwa [(h.insert_left hn).left_unique hpos hq]
    · by_cases hms : m = s
      · subst hms
        obtain rfl := (h.insert_right hn).left_unique hpos hq
        refine ⟨⟨p, h, ?_⟩, ?_⟩
        · grind [Open, HalfOpen]
        · grind [Open, HalfOpen]
      · have hqn : q ≠ n := by
          rintro rfl
          exact hms (hq.right_unique hpos (h.insert_right hn))
        refine ⟨⟨q, ⟨?_, ?_, ?_⟩, hin⟩, fun hm => hms hm.1⟩
        · exact Finset.mem_of_mem_insert_of_ne hq.left_mem hqn
        · exact Finset.mem_of_mem_insert_of_ne hq.right_mem hmn
        · exact fun x hx => hq.between x (Finset.mem_insert_of_mem hx)
  · intro hm
    split_ifs at hm with hmn
    · subst hmn
      exact ⟨p, h.insert_left hn, hm⟩
    · obtain ⟨⟨q, hq, hin⟩, hnot⟩ := hm
      by_cases hms : m = s
      · subst hms
        obtain rfl := h.left_unique hpos hq
        refine ⟨n, h.insert_right hn, ?_⟩
        grind [Open, HalfOpen]
      · refine ⟨q, h.insert_of_ne hpos hn hq ?_, hin⟩
        rintro rfl
        exact hms (hq.right_unique hpos h)

end Insert

/-- Moving to a member strictly between here and `id` leaves fewer members ahead. -/
lemma card_ahead_lt {c f : ι} {id : α} (hf : f ∈ ring) (h : Open (pos c) (pos f) id) :
    (ring.filter fun x => Open (pos f) (pos x) id).card <
      (ring.filter fun x => Open (pos c) (pos x) id).card := by
  apply Finset.card_lt_card
  rw [Finset.ssubset_iff_of_subset]
  · refine ⟨f, Finset.mem_filter.mpr ⟨hf, h⟩, ?_⟩
    intro hmem
    exact not_open_left _ _ (Finset.mem_filter.mp hmem).2
  · intro x hx
    rw [Finset.mem_filter] at hx ⊢
    exact ⟨hx.1, h.of_tail hx.2⟩

/-- Moving the end of the arc to a member inside leaves fewer members between. -/
lemma card_between_lt {a b : α} {c : ι} (hc : c ∈ ring) (h : Open a (pos c) b) :
    (ring.filter fun x => Open a (pos x) (pos c)).card <
      (ring.filter fun x => Open a (pos x) b).card := by
  apply Finset.card_lt_card
  rw [Finset.ssubset_iff_of_subset]
  · refine ⟨c, Finset.mem_filter.mpr ⟨hc, h⟩, ?_⟩
    intro hmem
    exact not_open_right _ _ (Finset.mem_filter.mp hmem).2
  · intro x hx
    rw [Finset.mem_filter] at hx ⊢
    exact ⟨hx.1, h.of_head hx.2⟩

end Members

end Arc
