import ChordPlusPlus.Foundation.Arc
import ChordPlusPlus.Util.ByteArr

/-!
# `is_in_range_loop`

The ring interval test of `util.h`.  `isInRangeLoop` follows the nested conditional of the source;
the routing, ownership, notify and handover code calls it with the lower end excluded, where it
decides membership in the arcs of `Foundation/Arc`.  On byte arrays these arcs are described by
the clockwise distance, and `ringIntervals_iff` says for which sizes the test is compatible with
`operator+`.
-/

namespace ChordPlusPlus

/-- `util::is_in_range_loop`. -/
def isInRangeLoop {α : Type*} [LinearOrder α] (value minValue maxValue : α)
    (includeMin : Bool := true) (includeMax : Bool := false) : Bool :=
  if minValue ≤ maxValue ∧ (minValue ≠ maxValue ∨ (includeMin ∧ includeMax)) then
    (if includeMin then decide (value ≥ minValue) else decide (value > minValue)) &&
      (if includeMax then decide (value ≤ maxValue) else decide (value < maxValue))
  else
    (if includeMin then decide (value ≥ minValue) else decide (value > minValue)) ||
      (if includeMax then decide (value ≤ maxValue) else decide (value < maxValue))

section Arcs

variable {α : Type*} [LinearOrder α]

/-- With both ends excluded the test decides the open arc. -/
@[simp] lemma isInRangeLoop_false_false {v a b : α} :
    isInRangeLoop v a b false false = true ↔ Arc.Open a v b := by
  grind [isInRangeLoop, Arc.Open]

/-- With only the upper end included the test decides the half-open arc. -/
@[simp] lemma isInRangeLoop_false_true {v a b : α} :
    isInRangeLoop v a b false true = true ↔ Arc.HalfOpen a v b := by
  grind [isInRangeLoop, Arc.HalfOpen]

/-- Between distinct points the test decides the open arc, with the ends that are included. -/
lemma isInRangeLoop_of_ne {v a b : α} (hab : a ≠ b) (includeMin includeMax : Bool) :
    isInRangeLoop v a b includeMin includeMax = true ↔
      Arc.Open a v b ∨ (v = a ∧ includeMin = true) ∨ (v = b ∧ includeMax = true) := by
  rcases lt_or_gt_of_ne hab with hlt | hgt
  · cases includeMin <;> cases includeMax <;>
      simp [isInRangeLoop, Arc.Open, hlt, hlt.le, hab] <;> grind
  · cases includeMin <;> cases includeMax <;>
      simp [isInRangeLoop, Arc.Open, hgt.not_ge, hgt.not_gt, hab] <;> grind

/-- From a point to itself the test decides the point, the rest of the circle, or all of it. -/
lemma isInRangeLoop_self (v a : α) (includeMin includeMax : Bool) :
    isInRangeLoop v a a includeMin includeMax =
      if includeMin = true ∧ includeMax = true then decide (v = a)
      else if includeMin = true ∨ includeMax = true then true else decide (v ≠ a) := by
  cases includeMin <;> cases includeMax <;> grind [isInRangeLoop]

end Arcs

namespace ByteArr

variable {n : ℕ} {a b v : ByteArr n}

lemma dist_lt (a b : ByteArr n) : dist a b < 256 ^ n :=
  Nat.mod_lt _ (Nat.pow_pos (by decide))

/-- The distance without the modulus, for arguments in either order. -/
lemma dist_eq (a b : ByteArr n) :
    dist a b = if a.toNat ≤ b.toNat then b.toNat - a.toNat
      else b.toNat + 256 ^ n - a.toNat := by
  have ha := a.toNat_lt
  have hb := b.toNat_lt
  unfold dist
  split_ifs with h
  · rw [show b.toNat + (256 ^ n - a.toNat) = b.toNat - a.toNat + 256 ^ n by omega,
      Nat.add_mod_right]
    exact Nat.mod_eq_of_lt (by omega)
  · rw [Nat.mod_eq_of_lt (by omega)]
    omega

lemma dist_self (a : ByteArr n) : dist a a = 0 := by
  simp [dist_eq]

/-- Strictly inside an arc between distinct points is strictly between by distance. -/
lemma open_iff_dist (hab : a ≠ b) :
    Arc.Open a v b ↔ 0 < dist a v ∧ dist a v < dist a b := by
  have ha := a.toNat_lt
  have hb := b.toNat_lt
  have hv := v.toNat_lt
  rw [Ne, eq_iff_toNat_eq] at hab
  rw [dist_eq, dist_eq]
  unfold Arc.Open
  simp only [lt_iff_toNat_lt]
  split_ifs <;> omega

/-- Distinct points have a positive distance. -/
lemma dist_pos (hab : a ≠ b) : 0 < dist a b := by
  have ha := a.toNat_lt
  rw [Ne, eq_iff_toNat_eq] at hab
  rw [dist_eq]
  split_ifs <;> omega

/-- A pointer from `a` into the arc towards `b` is strictly shorter. -/
lemma dist_lt_dist_left (hab : a ≠ b) (h : Arc.Open a v b) : dist a v < dist a b :=
  ((open_iff_dist hab).mp h).2

/-- A pointer from inside the arc towards `b` is strictly shorter. -/
lemma dist_lt_dist_right (hab : a ≠ b) (h : Arc.Open a v b) : dist v b < dist a b := by
  have ha := a.toNat_lt
  have hb := b.toNat_lt
  have hv := v.toNat_lt
  rw [Ne, eq_iff_toNat_eq] at hab
  rw [dist_eq, dist_eq]
  unfold Arc.Open at h
  simp only [lt_iff_toNat_lt] at h
  split_ifs at h ⊢ <;> omega

/-- A half-open arc by distance: from a point inside, the end comes no later than the start. -/
lemma halfOpen_iff_dist : Arc.HalfOpen a v b ↔ dist v b ≤ dist v a := by
  have ha := a.toNat_lt
  have hb := b.toNat_lt
  have hv := v.toNat_lt
  rw [dist_eq, dist_eq]
  unfold Arc.HalfOpen
  simp only [lt_iff_toNat_lt, le_iff_toNat_le]
  split_ifs <;> omega

/-- Distances add up along the way. -/
lemma dist_add_dist (h : dist a v ≤ dist a b) : dist a v + dist v b = dist a b := by
  have ha := a.toNat_lt
  have hb := b.toNat_lt
  have hv := v.toNat_lt
  rw [dist_eq, dist_eq] at h
  rw [dist_eq, dist_eq, dist_eq]
  split_ifs at h ⊢ <;> omega

/-- The distance to a point from the start moved on by `v`. -/
lemma dist_add_left (a v b : ByteArr n) :
    dist (a + v) b = if v.toNat ≤ dist a b then dist a b - v.toNat
      else dist a b + 256 ^ n - v.toNat := by
  have ha := a.toNat_lt
  have hb := b.toNat_lt
  have hv := v.toNat_lt
  have hadd := toNat_add a v
  rw [dist_eq, dist_eq, hadd]
  rcases Nat.lt_or_ge (a.toNat + v.toNat) (256 ^ n) with h | h
  · rw [Nat.mod_eq_of_lt h]
    split_ifs <;> omega
  · rw [Nat.mod_eq_sub_mod h, Nat.mod_eq_of_lt (by omega)]
    split_ifs <;> omega

/-- Moving both points leaves their distance as it was. -/
lemma dist_add_add (a b v : ByteArr n) : dist (a + v) (b + v) = dist a b := by
  have ha := a.toNat_lt
  have hb := b.toNat_lt
  have hv := v.toNat_lt
  have hmove := toNat_add b v
  rw [dist_add_left, dist_eq a (b + v), dist_eq a b, hmove]
  rcases Nat.lt_or_ge (b.toNat + v.toNat) (256 ^ n) with h | h
  · rw [Nat.mod_eq_of_lt h]
    split_ifs <;> omega
  · rw [Nat.mod_eq_sub_mod h, Nat.mod_eq_of_lt (by omega)]
    split_ifs <;> omega

/-- Only the distance of a point to itself is zero. -/
lemma dist_eq_zero_iff : dist a b = 0 ↔ a = b := by
  constructor
  · intro h
    by_contra hab
    have hpos := dist_pos hab
    omega
  · rintro rfl
    exact dist_self a

/-- The point right after `a` lies in every half-open arc that begins at `a`. -/
lemma halfOpen_add_one (hn : 0 < n) (hone : v.toNat = 1) (a b : ByteArr n) :
    Arc.HalfOpen a (a + v) b := by
  have ha := a.toNat_lt
  have hb := b.toNat_lt
  have hn' : 256 ≤ 256 ^ n := Nat.le_self_pow hn.ne' 256
  have hadd := toNat_add a v
  rw [hone] at hadd
  unfold Arc.HalfOpen
  simp only [lt_iff_toNat_lt, le_iff_toNat_le, hadd]
  rcases Nat.lt_or_ge (a.toNat + 1) (256 ^ n) with h | h
  · rw [Nat.mod_eq_of_lt h]
    split_ifs <;> omega
  · rw [show a.toNat + 1 = 256 ^ n by omega, Nat.mod_self]
    split_ifs <;> omega

/-- The point right after `a` lies in a half-open arc that ends at `a` only if the arc is the whole
circle. -/
lemma eq_of_halfOpen_add_one (hn : 0 < n) (hone : v.toNat = 1) {p : ByteArr n}
    (h : Arc.HalfOpen p (a + v) a) : p = a := by
  have ha := a.toNat_lt
  have hp := p.toNat_lt
  have hn' : 256 ≤ 256 ^ n := Nat.le_self_pow hn.ne' 256
  have hadd := toNat_add a v
  rw [hone] at hadd
  unfold Arc.HalfOpen at h
  simp only [lt_iff_toNat_lt, le_iff_toNat_le, hadd] at h
  rw [eq_iff_toNat_eq]
  rcases Nat.lt_or_ge (a.toNat + 1) (256 ^ n) with hlt | hge
  · rw [Nat.mod_eq_of_lt hlt] at h
    split_ifs at h <;> omega
  · rw [show a.toNat + 1 = 256 ^ n by omega, Nat.mod_self] at h
    split_ifs at h <;> omega

end ByteArr

/-! ## Ring intervals -/

section Intervals

variable {n : ℕ}

/-- Moving the point and the ends of an arc does not change the test. -/
lemma isInRangeLoop_add (d v a b : ByteArr n) (includeMin includeMax : Bool) :
    isInRangeLoop (v + d) (a + d) (b + d) includeMin includeMax =
      isInRangeLoop v a b includeMin includeMax := by
  have hcancel : ∀ x y : ByteArr n, x + d = y + d ↔ x = y := by
    intro x y
    rw [← ByteArr.dist_eq_zero_iff, ByteArr.dist_add_add, ByteArr.dist_eq_zero_iff]
  by_cases hab : a = b
  · subst hab
    simp only [isInRangeLoop_self, ne_eq, hcancel]
  · have hab' : a + d ≠ b + d := fun h => hab ((hcancel a b).mp h)
    rw [Bool.eq_iff_iff, isInRangeLoop_of_ne hab, isInRangeLoop_of_ne hab',
      ByteArr.open_iff_dist hab, ByteArr.open_iff_dist hab', ByteArr.dist_add_add,
      ByteArr.dist_add_add, hcancel, hcancel]

/-- The arcs from the previous id up to an id, over a finite set of ids, cut the circle into pieces. -/
lemma existsUnique_arc {ids : Finset (ByteArr n)} (hids : ids.Nonempty) (v : ByteArr n) :
    ∃! s, s ∈ ids ∧ ∃ p, Arc.IsNext id ids p s ∧ isInRangeLoop v p s false true = true := by
  obtain ⟨s, p, hp, hin⟩ := @Arc.exists_owns _ _ _ id ids hids v
  refine ⟨s, ⟨hp.right_mem, p, hp, isInRangeLoop_false_true.mpr hin⟩, ?_⟩
  rintro t ⟨-, q, hq, hqt⟩
  have ht : Arc.Owns id ids v t := ⟨q, hq, isInRangeLoop_false_true.mp hqt⟩
  exact ht.unique Function.injective_id ⟨p, hp, hin⟩

/-- The ring intervals as they should be, for arrays of `n` bytes. -/
structure RingIntervals (n : ℕ) : Prop where
  /-- Between distinct ends, the test goes by clockwise distance. -/
  distinct : ∀ (v a b : ByteArr n) (includeMin includeMax : Bool), a ≠ b →
    (isInRangeLoop v a b includeMin includeMax = true ↔
      (0 < ByteArr.dist a v ∧ ByteArr.dist a v < ByteArr.dist a b) ∨
        (v = a ∧ includeMin = true) ∨ (v = b ∧ includeMax = true))
  same : ∀ v a : ByteArr n, (isInRangeLoop v a a true true = true ↔ v = a) ∧
    (isInRangeLoop v a a false false = true ↔ v ≠ a) ∧
    isInRangeLoop v a a true false = true ∧ isInRangeLoop v a a false true = true
  /-- Adding to all three arguments does not change the test.  The three sums are made in arrays of
  their own. -/
  shift : ∀ (ret ret' ret'' d v a b : ByteArr n) (includeMin includeMax : Bool),
    isInRangeLoop (ByteArr.operatorPlus ret v d) (ByteArr.operatorPlus ret' a d)
        (ByteArr.operatorPlus ret'' b d) includeMin includeMax =
      isInRangeLoop v a b includeMin includeMax
  /-- Every id has a previous one, and every point lies in exactly one of the arcs. -/
  pieces : ∀ ids : Finset (ByteArr n), ids.Nonempty →
    (∀ s ∈ ids, ∃! p, Arc.IsNext id ids p s) ∧
    ∀ v, ∃! s, s ∈ ids ∧ ∃ p, Arc.IsNext id ids p s ∧ isInRangeLoop v p s false true = true

/-- In a longer array, two sums of the same numbers may differ, and the test tells them apart. -/
lemma isInRangeLoop_operatorPlus_filled (hn : 2 ^ 31 < n) (v d : ByteArr n) :
    isInRangeLoop (ByteArr.operatorPlus (ByteArr.filled 1) v d)
      (ByteArr.operatorPlus (ByteArr.filled 0) v d)
      (ByteArr.operatorPlus (ByteArr.filled 0) v d) false false = true := by
  have hne := ByteArr.operatorPlus_filled_ne hn v d (show (1 : UInt8) ≠ 0 by decide)
  rw [isInRangeLoop_self]
  simp [hne]

lemma RingIntervals.size_le (h : RingIntervals n) : n ≤ 2 ^ 31 := by
  by_contra hlarge
  have hmoved := isInRangeLoop_operatorPlus_filled (Nat.not_le.mp hlarge) (ByteArr.filled 0)
    (ByteArr.filled 0)
  rw [h.shift] at hmoved
  exact (h.same _ _).2.1.mp hmoved rfl

/-- **Ring intervals.**  The test is right by clockwise distance, does not change when `operator+` moves
all three arguments, and cuts the circle into pieces, if and only if the arrays have at most `2 ^ 31`
bytes. -/
theorem ringIntervals_iff (n : ℕ) : RingIntervals n ↔ n ≤ 2 ^ 31 := by
  constructor
  · exact RingIntervals.size_le
  · intro hn
    constructor
    · intro v a b includeMin includeMax hab
      rw [isInRangeLoop_of_ne hab, ByteArr.open_iff_dist hab]
    · intro v a
      simp [isInRangeLoop_self]
    · intro ret ret' ret'' d v a b includeMin includeMax
      rw [ByteArr.operatorPlus_eq_add hn, ByteArr.operatorPlus_eq_add hn,
        ByteArr.operatorPlus_eq_add hn, isInRangeLoop_add]
    · intro ids hids
      refine ⟨fun s hs => ?_, existsUnique_arc hids⟩
      obtain ⟨p, hp⟩ := @Arc.exists_isNext _ _ _ id ids Function.injective_id _ hs
      exact ⟨p, hp, fun q hq => hq.left_unique Function.injective_id hp⟩

/-- With one byte more, the arc from zero to zero does not contain zero, but when all three are moved
by zero, it may. -/
theorem not_ringIntervals :
    isInRangeLoop (ByteArr.operatorPlus (ByteArr.filled 1) (ByteArr.filled 0) (ByteArr.filled 0))
        (ByteArr.operatorPlus (ByteArr.filled 0) (ByteArr.filled 0) (ByteArr.filled 0))
        (ByteArr.operatorPlus (ByteArr.filled 0) (ByteArr.filled 0)
          (ByteArr.filled 0 : ByteArr 2147483649)) false false = true ∧
      isInRangeLoop (ByteArr.filled 0) (ByteArr.filled 0) (ByteArr.filled 0 : ByteArr 2147483649)
        false false = false ∧
      ¬ RingIntervals 2147483649 := by
  refine ⟨isInRangeLoop_operatorPlus_filled (by decide) _ _, ?_, ?_⟩
  · rw [isInRangeLoop_self]
    simp
  · intro h
    exact absurd h.size_le (by decide)

end Intervals

end ChordPlusPlus
