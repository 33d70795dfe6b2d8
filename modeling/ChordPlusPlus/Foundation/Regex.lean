import ChordPlusPlus.Foundation.Slice
import Mathlib.Computability.RegularExpressions

/-!
# Patterns

The operators of pattern languages that Mathlib's regular expressions lack: a class of letters, an
optional part, a part that is repeated a bounded number of times or at least once, each with the words
that it matches.  `captures` matches a pattern with two groups and returns them.
-/

namespace RegularExpression

variable {α : Type*}

/-- One of the letters. -/
def oneOf (letters : List α) : RegularExpression α := letters.foldr (fun c r => char c + r) 0

/-- The part, or nothing. -/
def optional (r : RegularExpression α) : RegularExpression α := r + 1

/-- The part once or more. -/
def oneOrMore (r : RegularExpression α) : RegularExpression α := r * r.star

/-- The part up to `n` times. -/
def atMost (r : RegularExpression α) : ℕ → RegularExpression α
  | 0 => 1
  | n + 1 => optional (r * atMost r n)

/-- Matches `opening`, a first group, `separator` and a second group, and returns the groups: the
first of the possible ways, in the order of the lengths of the first group. -/
def captures [DecidableEq α] (opening : List α) (first : RegularExpression α) (separator : List α)
    (second : RegularExpression α) (w : List α) : Option (List α × List α) :=
  (List.range (w.length + 1)).findSome? fun i =>
    let a := (w.drop opening.length).take i
    let b := w.drop (opening.length + i + separator.length)
    if w = opening ++ a ++ separator ++ b ∧ first.rmatch a = true ∧ second.rmatch b = true then
      some (a, b)
    else none

variable {letters w : List α}

lemma mem_oneOf : w ∈ (oneOf letters).matches' ↔ ∃ c ∈ letters, w = [c] := by
  induction letters with
  | nil =>
    constructor
    · exact False.elim
    · rintro ⟨c, hc, -⟩
      cases hc
  | cons d letters ih =>
    change w ∈ (char d + oneOf letters).matches' ↔ _
    rw [matches'_add, Language.mem_add, ih, matches'_char]
    simp only [List.mem_cons, exists_eq_or_imp]
    exact Iff.rfl

/-- The words over the letters. -/
lemma mem_star_oneOf : w ∈ (oneOf letters).star.matches' ↔ ∀ c ∈ w, c ∈ letters := by
  rw [matches'_star, Language.mem_kstar]
  constructor
  · rintro ⟨parts, rfl, hparts⟩ c hc
    obtain ⟨part, hpart, hc⟩ := List.mem_flatten.mp hc
    obtain ⟨d, hd, rfl⟩ := mem_oneOf.mp (hparts part hpart)
    rwa [List.mem_singleton.mp hc]
  · intro hw
    refine ⟨w.map fun c => [c], by simp [← List.flatMap_def], ?_⟩
    intro part hpart
    obtain ⟨c, hc, rfl⟩ := List.mem_map.mp hpart
    exact mem_oneOf.mpr ⟨c, hw c hc, rfl⟩

lemma mem_oneOf_mul {r : RegularExpression α} :
    w ∈ (oneOf letters * r).matches' ↔ ∃ c ∈ letters, ∃ v ∈ r.matches', w = c :: v := by
  rw [matches'_mul, Language.mem_mul]
  constructor
  · rintro ⟨u, hu, v, hv, rfl⟩
    obtain ⟨c, hc, rfl⟩ := mem_oneOf.mp hu
    exact ⟨c, hc, v, hv, rfl⟩
  · rintro ⟨c, hc, v, hv, rfl⟩
    exact ⟨[c], mem_oneOf.mpr ⟨c, hc, rfl⟩, v, hv, rfl⟩

/-- The non-empty words over the letters. -/
lemma mem_oneOrMore_oneOf :
    w ∈ (oneOrMore (oneOf letters)).matches' ↔ w ≠ [] ∧ ∀ c ∈ w, c ∈ letters := by
  rw [oneOrMore, mem_oneOf_mul]
  constructor
  · rintro ⟨c, hc, v, hv, rfl⟩
    exact ⟨List.cons_ne_nil c v, List.forall_mem_cons.mpr ⟨hc, mem_star_oneOf.mp hv⟩⟩
  · rintro ⟨hne, hw⟩
    obtain ⟨c, v, rfl⟩ := List.exists_cons_of_ne_nil hne
    obtain ⟨hc, hv⟩ := List.forall_mem_cons.mp hw
    exact ⟨c, hc, v, mem_star_oneOf.mpr hv, rfl⟩

/-- The words over the letters up to a length. -/
lemma mem_atMost_oneOf {n : ℕ} :
    w ∈ (atMost (oneOf letters) n).matches' ↔ w.length ≤ n ∧ ∀ c ∈ w, c ∈ letters := by
  induction n generalizing w with
  | zero =>
    change w ∈ (1 : Language α) ↔ _
    rw [Language.mem_one]
    constructor
    · rintro rfl
      simp
    · rintro ⟨hlength, -⟩
      exact List.eq_nil_of_length_eq_zero (Nat.le_zero.mp hlength)
  | succ n ih =>
    change w ∈ (oneOf letters * atMost (oneOf letters) n).matches' + 1 ↔ _
    rw [Language.mem_add, mem_oneOf_mul, Language.mem_one]
    cases w with
    | nil => simp
    | cons c v =>
      constructor
      · rintro (⟨d, hd, u, hu, heq⟩ | hnil)
        · obtain ⟨rfl, rfl⟩ := List.cons.inj heq
          obtain ⟨hlength, hletters⟩ := ih.mp hu
          exact ⟨Nat.succ_le_succ hlength, List.forall_mem_cons.mpr ⟨hd, hletters⟩⟩
        · cases hnil
      · rintro ⟨hlength, hw⟩
        obtain ⟨hc, hv⟩ := List.forall_mem_cons.mp hw
        exact Or.inl ⟨c, hc, v, ih.mpr ⟨Nat.le_of_succ_le_succ hlength, hv⟩, rfl⟩

/-! ## Groups -/

variable [DecidableEq α] {opening separator a b : List α} {first second : RegularExpression α}

/-- The groups returned make up the word, and each matches its part of the pattern. -/
lemma split_of_captures (h : captures opening first separator second w = some (a, b)) :
    w = opening ++ a ++ separator ++ b ∧ a ∈ first.matches' ∧ b ∈ second.matches' := by
  obtain ⟨i, -, hi⟩ := List.exists_of_findSome?_eq_some h
  dsimp only at hi
  split_ifs at hi with hsplit
  obtain ⟨rfl, rfl⟩ := Prod.mk.inj (Option.some.inj hi)
  exact ⟨hsplit.1, (rmatch_iff_matches' _ _).mp hsplit.2.1, (rmatch_iff_matches' _ _).mp hsplit.2.2⟩

/-- If there are groups, some are returned. -/
lemma exists_captures (ha : a ∈ first.matches') (hb : b ∈ second.matches') :
    ∃ groups, captures opening first separator second (opening ++ a ++ separator ++ b) =
      some groups := by
  rw [← Option.isSome_iff_exists, captures, List.findSome?_isSome_iff]
  refine ⟨a.length, List.mem_range.mpr (by simp only [List.length_append]; omega), ?_⟩
  have htake : ((opening ++ a ++ separator ++ b).drop opening.length).take a.length = a := by
    rw [List.append_assoc, List.append_assoc, List.drop_left, List.take_left]
  have hdrop : (opening ++ a ++ separator ++ b).drop
      (opening.length + a.length + separator.length) = b := by
    rw [← List.length_append, ← List.length_append, List.drop_left]
  dsimp only
  rw [htake, hdrop, if_pos ⟨rfl, (rmatch_iff_matches' _ _).mpr ha, (rmatch_iff_matches' _ _).mpr hb⟩]
  rfl

/-- When the separator ends with a letter that the second group cannot contain, there is one way to
split a word at most, and the groups are what stands there. -/
lemma captures_eq_some_iff {c : α} (hsecond : ∀ v ∈ second.matches', c ∉ v) :
    captures opening first (separator ++ [c]) second w = some (a, b) ↔
      w = opening ++ a ++ (separator ++ [c]) ++ b ∧ a ∈ first.matches' ∧ b ∈ second.matches' := by
  constructor
  · exact split_of_captures
  · rintro ⟨rfl, ha, hb⟩
    obtain ⟨⟨a', b'⟩, hgroups⟩ :=
      @exists_captures _ _ opening (separator ++ [c]) a b first second ha hb
    obtain ⟨hsplit, -, hb'⟩ := split_of_captures hgroups
    have hlast : (opening ++ a ++ separator) ++ c :: b = (opening ++ a' ++ separator) ++ c :: b' := by
      simpa using hsplit
    obtain ⟨hfront, rfl⟩ := Slice.append_cons_inj_of_notMem (hsecond b hb) (hsecond b' hb') hlast
    rw [hgroups, List.append_cancel_left (List.append_cancel_right hfront)]

end RegularExpression
