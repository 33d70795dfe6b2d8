import Mathlib.Order.Defs.LinearOrder
import Mathlib.Data.Nat.Basic
import Mathlib.Tactic.Ring
import Mathlib.Tactic.IntervalCases
import Mathlib.Tactic.LinearCombination

/-!
# Fixed-size byte arrays

`ByteArr n` is `std::array<uint8_t, n>`, the type of ring ids for `n = 32`.  The comparison
operators of `std::array` are lexicographic; `operator+` and `pow2` are those of `util.h`, with
the carry detected in eight bits, the index of `operator+` kept in an `int` and the index of `pow2`
computed in 64 bits, as in the source.

Read as a big-endian number, a `ByteArr n` ranges over the residues modulo `256 ^ n`: the
lexicographic order is the numerical order (`ByteArr.lt_iff_toNat_lt`), `a + b` is addition modulo
`256 ^ n` (`ByteArr.toNat_add`), and `pow2` yields the powers of two (`toNat_pow2`).  Up to `2 ^ 31`
bytes, and so for ring ids, `operator+` computes `a + b` (`ByteArr.operatorPlus_eq_add`); in a longer
array it does not reach the last bytes (`ByteArr.operatorPlus_filled_ne`).
-/

namespace ChordPlusPlus

/-! ## Byte strings as big-endian numbers -/

/-- The big-endian value of a byte string. -/
def beNat : List UInt8 → ℕ
  | [] => 0
  | b :: bs => b.toNat * 256 ^ bs.length + beNat bs

/-- `std::lexicographical_compare` on byte strings. -/
def lexLt : List UInt8 → List UInt8 → Bool
  | [], [] => false
  | [], _ :: _ => true
  | _ :: _, [] => false
  | a :: as, b :: bs =>
      if a < b then true else if b < a then false else lexLt as bs

@[simp] lemma beNat_nil : beNat [] = 0 := rfl

lemma beNat_cons (b : UInt8) (bs : List UInt8) :
    beNat (b :: bs) = b.toNat * 256 ^ bs.length + beNat bs := rfl

/-- A byte string of length `n` denotes a number below `256 ^ n`. -/
lemma beNat_lt (l : List UInt8) : beNat l < 256 ^ l.length := by
  induction l with
  | nil => simp
  | cons b bs ih =>
    have hb : b.toNat < 256 := b.toNat_lt
    calc beNat (b :: bs) = b.toNat * 256 ^ bs.length + beNat bs := rfl
      _ < b.toNat * 256 ^ bs.length + 256 ^ bs.length := by omega
      _ = (b.toNat + 1) * 256 ^ bs.length := by ring
      _ ≤ 256 * 256 ^ bs.length := Nat.mul_le_mul_right _ (by omega)
      _ = 256 ^ (b :: bs).length := by rw [List.length_cons, pow_succ]; ring

/-- The first differing byte decides the numerical comparison of two strings of one length. -/
lemma beNat_cons_lt {a b : UInt8} {as bs : List UInt8} (hlen : as.length = bs.length)
    (hab : a < b) : beNat (a :: as) < beNat (b :: bs) := by
  have hlt : a.toNat + 1 ≤ b.toNat := UInt8.lt_iff_toNat_lt.mp hab
  have has := beNat_lt as
  calc beNat (a :: as) = a.toNat * 256 ^ as.length + beNat as := rfl
    _ < (a.toNat + 1) * 256 ^ as.length := by rw [Nat.add_mul]; omega
    _ ≤ b.toNat * 256 ^ bs.length := by rw [hlen]; exact Nat.mul_le_mul_right _ hlt
    _ ≤ beNat (b :: bs) := Nat.le_add_right _ _

/-- Lexicographic comparison of strings of one length is the comparison of their values. -/
lemma lexLt_iff {as bs : List UInt8} (hlen : as.length = bs.length) :
    lexLt as bs = true ↔ beNat as < beNat bs := by
  induction as generalizing bs with
  | nil =>
    obtain rfl : bs = [] := List.length_eq_zero_iff.mp hlen.symm
    simp [lexLt]
  | cons a as ih =>
    obtain _ | ⟨b, bs⟩ := bs
    · simp at hlen
    have hlen' : as.length = bs.length := by simpa using hlen
    rw [lexLt]
    split_ifs with hab hba
    · simpa using beNat_cons_lt hlen' hab
    · simpa using (beNat_cons_lt hlen'.symm hba).le
    · have heq : a = b := by
        apply UInt8.toNat.inj
        rw [UInt8.lt_iff_toNat_lt] at hab hba
        omega
      rw [ih hlen', heq, beNat_cons, beNat_cons, hlen']
      omega

/-- Strings of one length with one value are equal. -/
lemma beNat_injective {as bs : List UInt8} (hlen : as.length = bs.length)
    (h : beNat as = beNat bs) : as = bs := by
  induction as generalizing bs with
  | nil => exact (List.length_eq_zero_iff.mp hlen.symm).symm
  | cons a as ih =>
    obtain _ | ⟨b, bs⟩ := bs
    · simp at hlen
    have hlen' : as.length = bs.length := by simpa using hlen
    have hab : a = b := by
      apply UInt8.toNat.inj
      by_contra hne
      rcases Nat.lt_or_gt_of_ne hne with hlt | hlt
      · exact absurd h (beNat_cons_lt hlen' (UInt8.lt_iff_toNat_lt.mpr hlt)).ne
      · exact absurd h (beNat_cons_lt hlen'.symm (UInt8.lt_iff_toNat_lt.mpr hlt)).ne'
    subst hab
    rw [beNat_cons, beNat_cons, hlen'] at h
    rw [ih hlen' (by omega)]

/-! ## `std::array<uint8_t, n>` and its order -/

/-- `std::array<uint8_t, n>`. -/
structure ByteArr (n : ℕ) where
  /-- The bytes, the most significant first. -/
  bytes : List UInt8
  /-- The array has exactly `n` of them. -/
  size_eq : bytes.length = n
deriving DecidableEq

namespace ByteArr

variable {n : ℕ}

/-- The array read as a big-endian number. -/
def toNat (a : ByteArr n) : ℕ := beNat a.bytes

lemma toNat_lt (a : ByteArr n) : a.toNat < 256 ^ n := by
  have h := beNat_lt a.bytes
  rwa [a.size_eq] at h

lemma toNat_injective : Function.Injective (toNat : ByteArr n → ℕ) := by
  intro a b h
  obtain ⟨as, ha⟩ := a
  obtain ⟨bs, hb⟩ := b
  have : as = bs := beNat_injective (ha.trans hb.symm) h
  subst this
  rfl

/-- `operator<` of `std::array`. -/
instance : LT (ByteArr n) := ⟨fun a b => lexLt a.bytes b.bytes = true⟩

/-- `operator<=` of `std::array`. -/
instance : LE (ByteArr n) := ⟨fun a b => lexLt b.bytes a.bytes = false⟩

instance : DecidableLT (ByteArr n) := fun a b =>
  inferInstanceAs (Decidable (lexLt a.bytes b.bytes = true))

instance : DecidableLE (ByteArr n) := fun a b =>
  inferInstanceAs (Decidable (lexLt b.bytes a.bytes = false))

/-- The order of the arrays is the order of their values. -/
lemma lt_iff_toNat_lt {a b : ByteArr n} : a < b ↔ a.toNat < b.toNat :=
  lexLt_iff (a.size_eq.trans b.size_eq.symm)

lemma le_iff_toNat_le {a b : ByteArr n} : a ≤ b ↔ a.toNat ≤ b.toNat := by
  have h := lt_iff_toNat_lt (a := b) (b := a)
  change lexLt b.bytes a.bytes = false ↔ _
  rw [← Bool.not_eq_true, ← not_lt]
  exact not_congr h

lemma eq_iff_toNat_eq {a b : ByteArr n} : a = b ↔ a.toNat = b.toNat :=
  toNat_injective.eq_iff.symm

instance : LinearOrder (ByteArr n) where
  le_refl a := le_iff_toNat_le.mpr le_rfl
  le_trans a b c hab hbc :=
    le_iff_toNat_le.mpr ((le_iff_toNat_le.mp hab).trans (le_iff_toNat_le.mp hbc))
  lt_iff_le_not_ge a b := by
    rw [lt_iff_toNat_lt, le_iff_toNat_le, le_iff_toNat_le]
    omega
  le_antisymm a b hab hba :=
    toNat_injective (Nat.le_antisymm (le_iff_toNat_le.mp hab) (le_iff_toNat_le.mp hba))
  le_total a b := by
    rw [le_iff_toNat_le, le_iff_toNat_le]
    exact Nat.le_total _ _
  toDecidableLE := inferInstance
  toDecidableLT := inferInstance
  toDecidableEq := inferInstance

/-- The clockwise distance from `a` to `b`: `(b - a) mod 256 ^ n`. -/
def dist (a b : ByteArr n) : ℕ := (b.toNat + (256 ^ n - a.toNat)) % 256 ^ n

end ByteArr

/-! ## `operator+` and `pow2` -/

/-- The loop of `operator+`, from the last index to the first: the sum bytes and the carry out.
`sum` starts as the carry in, and the carry is set before each of the two wrapping additions. -/
def addLoop : List UInt8 → List UInt8 → List UInt8 × Bool
  | a :: as, b :: bs =>
      let (ret, carry) := addLoop as bs
      let sum : UInt8 := if carry then 1 else 0
      let carry := decide (255 - sum.toNat < a.toNat)
      let sum := sum + a
      let carry := carry || decide (255 - sum.toNat < b.toNat)
      let sum := sum + b
      (sum :: ret, carry)
  | _, _ => ([], false)

lemma length_addLoop {as bs : List UInt8} (hlen : as.length = bs.length) :
    (addLoop as bs).1.length = as.length := by
  induction as generalizing bs with
  | nil => rfl
  | cons a as ih =>
    obtain _ | ⟨b, bs⟩ := bs
    · simp at hlen
    simpa [addLoop] using ih (by simpa using hlen)

/-- One byte of the loop: the two eight-bit carry tests together detect that the sum of the two
bytes and the carry in reaches `256`. -/
lemma addLoop_byte (a b : UInt8) (c : Bool) :
    (((if c then 1 else 0 : UInt8) + a + b).toNat +
      256 * ((decide (255 - (if c then 1 else 0 : UInt8).toNat < a.toNat) ||
        decide (255 - ((if c then 1 else 0 : UInt8) + a).toNat < b.toNat)).toNat)) =
      c.toNat + a.toNat + b.toNat := by
  have ha : a.toNat < 256 := a.toNat_lt
  have hb : b.toNat < 256 := b.toNat_lt
  have hc : (if c then 1 else 0 : UInt8).toNat = c.toNat := by cases c <;> rfl
  have hc' : c.toNat ≤ 1 := by cases c <;> decide
  simp only [UInt8.toNat_add, hc, Nat.reducePow]
  by_cases h1 : 255 - c.toNat < a.toNat <;>
    by_cases h2 : 255 - (c.toNat + a.toNat) % 256 < b.toNat <;>
    simp only [h1, h2, decide_true, decide_false, Bool.or_true, Bool.or_false, Bool.toNat_true,
      Bool.toNat_false] <;>
    omega

/-- The loop adds exactly, with the carry out as the digit above the array. -/
lemma beNat_addLoop {as bs : List UInt8} (hlen : as.length = bs.length) :
    beNat (addLoop as bs).1 + (addLoop as bs).2.toNat * 256 ^ as.length =
      beNat as + beNat bs := by
  induction as generalizing bs with
  | nil =>
    obtain rfl : bs = [] := List.length_eq_zero_iff.mp hlen.symm
    simp [addLoop]
  | cons a as ih =>
    obtain _ | ⟨b, bs⟩ := bs
    · simp at hlen
    have hlen' : as.length = bs.length := by simpa using hlen
    have hbyte := addLoop_byte a b (addLoop as bs).2
    have hrec := ih hlen'
    have hsize := length_addLoop hlen'
    simp only [addLoop, beNat_cons, hsize, ← hlen', List.length_cons, pow_succ]
    set c := (addLoop as bs).2
    set p := 256 ^ as.length
    linear_combination p * hbyte + hrec

namespace ByteArr

variable {n : ℕ}

/-- The sum, by the loop of `operator+` over all bytes. -/
instance : Add (ByteArr n) :=
  ⟨fun a b => ⟨(addLoop a.bytes b.bytes).1,
    (length_addLoop (a.size_eq.trans b.size_eq.symm)).trans a.size_eq⟩⟩

/-- The loop over all bytes is addition modulo `256 ^ n`. -/
theorem toNat_add (a b : ByteArr n) : (a + b).toNat = (a.toNat + b.toNat) % 256 ^ n := by
  have h := beNat_addLoop (a.size_eq.trans b.size_eq.symm)
  rw [a.size_eq] at h
  change beNat (addLoop a.bytes b.bytes).1 = (beNat a.bytes + beNat b.bytes) % 256 ^ n
  rw [← h, Nat.add_mul_mod_self_right]
  exact (Nat.mod_eq_of_lt (toNat_lt (a + b))).symm

/-- The number of rounds of the loop `for (int i = size - 1; i >= 0; --i)` of `operator+`.  The index
is an `int`, so the conversion keeps 32 bits of `size - 1`. -/
def addRounds (size : ℕ) : ℕ := (Int.bmod ((size : ℤ) - 1) (2 ^ 32) + 1).toNat

/-- `operator+` on `std::array<uint8_t, n>`.  The loop goes from the byte `addRounds n - 1` down to the
first one.  `ret` is what the result holds before the loop; the source does not initialise it, and the
bytes that the loop does not write stay as they are. -/
def operatorPlus (ret a b : ByteArr n) : ByteArr n :=
  ⟨(addLoop (a.bytes.take (addRounds n)) (b.bytes.take (addRounds n))).1 ++
      ret.bytes.drop (addRounds n), by
    have hlen : (a.bytes.take (addRounds n)).length = (b.bytes.take (addRounds n)).length := by
      rw [List.length_take, List.length_take, a.size_eq, b.size_eq]
    rw [List.length_append, length_addLoop hlen, List.length_take, List.length_drop, a.size_eq,
      ret.size_eq]
    omega⟩

/-- Up to `2 ^ 31` bytes the last index fits into an `int`. -/
lemma addRounds_eq (hn : n ≤ 2 ^ 31) : addRounds n = n := by
  rw [addRounds, Int.bmod_eq_of_le] <;> omega

lemma addRounds_le (n : ℕ) : addRounds n ≤ 2 ^ 31 := by
  have h := @Int.bmod_lt ((n : ℤ) - 1) (2 ^ 32) (by decide)
  unfold addRounds
  omega

/-- Up to `2 ^ 31` bytes, `operator+` computes the sum, whatever the result held before. -/
lemma operatorPlus_eq_add (hn : n ≤ 2 ^ 31) (ret a b : ByteArr n) : operatorPlus ret a b = a + b := by
  have htake : ∀ c : ByteArr n, c.bytes.take (addRounds n) = c.bytes := by
    intro c
    exact List.take_of_length_le (by rw [addRounds_eq hn, c.size_eq])
  have hdrop : ret.bytes.drop (addRounds n) = [] :=
    List.drop_of_length_le (by rw [addRounds_eq hn, ret.size_eq])
  rw [operatorPlus, mk.injEq, htake, htake, hdrop, List.append_nil]
  rfl

/-- The array with all bytes the same. -/
def filled (byte : UInt8) : ByteArr n := ⟨List.replicate n byte, List.length_replicate⟩

/-- Above `2 ^ 31` bytes, the result depends on what the array held before: the last byte is not
written. -/
lemma operatorPlus_filled_ne (hn : 2 ^ 31 < n) (a b : ByteArr n) {byte byte' : UInt8}
    (hne : byte ≠ byte') : operatorPlus (filled byte) a b ≠ operatorPlus (filled byte') a b := by
  intro heq
  have hrounds := addRounds_le n
  have hbytes := congrArg bytes heq
  dsimp only [operatorPlus, filled] at hbytes
  rw [List.append_cancel_left_eq, List.drop_replicate, List.drop_replicate] at hbytes
  rcases (List.replicate_inj.mp hbytes).2 with hnone | hsame
  · omega
  · exact hne hsame

end ByteArr

/-- The value of `int64_t index = size - 1 - exp / 8` in `pow2`: a `size_t` subtraction, converted
to a signed 64-bit integer. -/
def pow2Index (size exp : ℕ) : ℤ := Int.bmod ((size : ℤ) - 1 - (exp / 8 : ℕ)) (2 ^ 64)

/-- `util::pow2<uint8_t, n>(exp)`.  The test `index < size` compares across signedness, so `index`
is converted to an unsigned number there. -/
def pow2 (n exp : ℕ) : ByteArr n :=
  let index := pow2Index n exp
  if index % 2 ^ 64 < n ∧ 0 ≤ index then
    ⟨(List.replicate n 0).set index.toNat (1 <<< UInt8.ofNat (exp % 8)), by simp⟩
  else
    ⟨List.replicate n 0, by simp⟩

@[simp] lemma beNat_replicate_zero (n : ℕ) : beNat (List.replicate n 0) = 0 := by
  induction n with
  | zero => rfl
  | succ n ih => simp [List.replicate_succ, beNat_cons, ih]

/-- Replacing the byte at index `i` of a zero array puts its value at weight `256 ^ (n - 1 - i)`. -/
lemma beNat_set_replicate (n i : ℕ) (b : UInt8) (hi : i < n) :
    beNat ((List.replicate n 0).set i b) = b.toNat * 256 ^ (n - 1 - i) := by
  induction n generalizing i with
  | zero => omega
  | succ n ih =>
    cases i with
    | zero => simp [List.replicate_succ, beNat_cons]
    | succ i =>
      have h := ih i (by omega)
      simp only [List.replicate_succ, List.set_cons_succ, beNat_cons, UInt8.toNat_zero, zero_mul,
        zero_add, h]
      congr 2
      omega

/-- In range, the index of `pow2` is not changed by its 64-bit computation. -/
lemma pow2Index_eq {n exp : ℕ} (hn : n < 2 ^ 63) (h : exp / 8 < n) :
    pow2Index n exp = ((n - 1 - exp / 8 : ℕ) : ℤ) := by
  unfold pow2Index
  rw [Int.bmod_eq_of_le] <;> omega

/-- `pow2` yields the power of two for every exponent inside the array. -/
theorem toNat_pow2 {n exp : ℕ} (hn : n < 2 ^ 63) (h : exp < 8 * n) :
    (pow2 n exp).toNat = 2 ^ exp := by
  have hdiv : exp / 8 < n := by omega
  have hidx := pow2Index_eq hn hdiv
  have hcond : pow2Index n exp % 2 ^ 64 < n ∧ 0 ≤ pow2Index n exp := by
    rw [hidx]; omega
  have hbyte : (1 <<< UInt8.ofNat (exp % 8) : UInt8).toNat = 2 ^ (exp % 8) := by
    have hm : exp % 8 < 8 := Nat.mod_lt _ (by decide)
    interval_cases exp % 8 <;> rfl
  have hnat : (pow2Index n exp).toNat = n - 1 - exp / 8 := by
    rw [hidx]; rfl
  unfold pow2
  rw [if_pos hcond]
  change beNat ((List.replicate n 0).set (pow2Index n exp).toNat
    (1 <<< UInt8.ofNat (exp % 8))) = _
  rw [hnat, beNat_set_replicate _ _ _ (by omega), hbyte,
    show (256 : ℕ) = 2 ^ 8 from rfl, ← pow_mul, ← pow_add]
  congr 1
  omega

/-- For any other exponent of 64 bits, the index of `pow2` is negative and no byte is set. -/
lemma toNat_pow2_of_le {n exp : ℕ} (hexp : exp < 2 ^ 64) (h : 8 * n ≤ exp) :
    (pow2 n exp).toNat = 0 := by
  have hidx : pow2Index n exp = (n : ℤ) - 1 - (exp / 8 : ℕ) := by
    rw [pow2Index, Int.bmod_eq_of_le] <;> omega
  have hcond : ¬ (pow2Index n exp % 2 ^ 64 < n ∧ 0 ≤ pow2Index n exp) := by
    rw [hidx]
    omega
  unfold pow2
  rw [if_neg hcond]
  exact beNat_replicate_zero n

end ChordPlusPlus
