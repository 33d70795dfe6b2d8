import Mathlib.Tactic.Ring
import Mathlib.Data.Nat.Bitwise

/-!
# Binary numerals

The value of a list of bits, the most significant first, and the bits of a number.  Leading zeros of a
numeral bound its value from above, and the other way round (`Bits.value_lt_iff`).
-/

namespace Bits

/-- The number that the bits denote, the most significant first. -/
def value : List Bool → ℕ
  | [] => 0
  | b :: bs => b.toNat * 2 ^ bs.length + value bs

/-- The last `k` bits of a number, the most significant first. -/
def ofNat (k n : ℕ) : List Bool := (List.range k).map fun j => n.testBit (k - 1 - j)

/-- No bits denote zero. -/
@[simp] lemma value_nil : value [] = 0 := rfl

/-- The first bit has the weight of the power of two that belongs to the bits behind it. -/
lemma value_cons (b : Bool) (bs : List Bool) :
    value (b :: bs) = b.toNat * 2 ^ bs.length + value bs := rfl

/-- A numeral is less than the power of two that belongs to its length. -/
lemma value_lt (bs : List Bool) : value bs < 2 ^ bs.length := by
  induction bs with
  | nil => simp
  | cons b bs ih =>
    have hb : b.toNat ≤ 1 := Bool.toNat_le b
    calc value (b :: bs) = b.toNat * 2 ^ bs.length + value bs := rfl
      _ ≤ 1 * 2 ^ bs.length + value bs := Nat.add_le_add_right (Nat.mul_le_mul_right _ hb) _
      _ < 2 ^ bs.length + 2 ^ bs.length := by omega
      _ = 2 ^ (b :: bs).length := by rw [List.length_cons, pow_succ]; ring

/-- The bits in front are shifted by the length of the bits behind them. -/
lemma value_append (bs cs : List Bool) :
    value (bs ++ cs) = value bs * 2 ^ cs.length + value cs := by
  induction bs with
  | nil => simp
  | cons b bs ih =>
    rw [List.cons_append, value_cons, value_cons, ih, List.length_append, pow_add]
    ring

/-- A number is given as many bits as are asked for. -/
@[simp] lemma length_ofNat (k n : ℕ) : (ofNat k n).length = k := by
  simp [ofNat]

/-- One bit more comes in front. -/
lemma ofNat_succ (k n : ℕ) : ofNat (k + 1) n = n.testBit k :: ofNat k n := by
  rw [ofNat, List.range_succ_eq_map, List.map_cons, List.map_map]
  congr 1
  refine List.map_congr_left ?_
  intro j hj
  have hlt := List.mem_range.mp hj
  change n.testBit (k + 1 - 1 - (j + 1)) = n.testBit (k - 1 - j)
  congr 1
  omega

/-- The bits of a number denote it, as far as they go. -/
lemma value_ofNat (k n : ℕ) : value (ofNat k n) = n % 2 ^ k := by
  induction k with
  | zero => simp [ofNat, Nat.mod_one]
  | succ k ih =>
    rw [ofNat_succ, value_cons, ih, length_ofNat, Nat.mod_pow_succ, Nat.toNat_testBit]
    ring

/-- The first `d` bits are zeros exactly when the value is less than that of a one followed by the
other bits.  By induction on the bits. -/
lemma value_lt_iff {bs : List Bool} {d : ℕ} (hd : d ≤ bs.length) :
    value bs < 2 ^ (bs.length - d) ↔ bs.take d = List.replicate d false := by
  induction bs generalizing d with
  | nil =>
    obtain rfl : d = 0 := Nat.le_zero.mp hd
    simp
  | cons b bs ih =>
    rcases d with _ | d
    · simpa using value_lt (b :: bs)
    · have hd' : d ≤ bs.length := Nat.le_of_succ_le_succ hd
      have hpow : 2 ^ (bs.length - d) ≤ 2 ^ bs.length := Nat.pow_le_pow_right (by decide) (by omega)
      rw [List.length_cons, Nat.add_sub_add_right, List.take_succ_cons, List.replicate_succ,
        List.cons.injEq, ← ih hd', value_cons]
      cases b with
      | false => simp
      | true =>
        simp only [Bool.toNat_true, one_mul, Bool.true_eq_false, false_and, iff_false]
        omega

end Bits
