import Mathlib.Data.Nat.Bitwise

/-!
# Sixteen-bit words in memory

The API messages hold 16-bit fields in network byte order.  The code reads and writes them through
`reinterpret_cast`, in the byte order of the host, and swaps the bytes itself.  The host is
little-endian: `loadUInt16` and `storeUInt16` have the low byte first.
-/

namespace ChordPlusPlus

/-- The word whose bytes in memory are `low` and `high`. -/
def loadUInt16 (low high : UInt8) : UInt16 := low.toUInt16 ||| (high.toUInt16 <<< 8)

/-- The two bytes of a word in memory. -/
def storeUInt16 (x : UInt16) : List UInt8 := [x.toUInt8, (x >>> 8).toUInt8]

/-- `util::swapBytes16`. -/
def swapBytes16 (x : UInt16) : UInt16 := ((0x00ff &&& x) <<< 8) ||| ((0xff00 &&& x) >>> 8)

lemma toNat_loadUInt16 (low high : UInt8) :
    (loadUInt16 low high).toNat = low.toNat + high.toNat * 256 := by
  have hlow := low.toNat_lt
  have hhigh := high.toNat_lt
  simp only [loadUInt16, UInt16.toNat_or, UInt8.toNat_toUInt16, UInt16.toNat_shiftLeft]
  change low.toNat ||| high.toNat <<< 8 % 2 ^ 16 = _
  rw [Nat.or_comm, Nat.mod_eq_of_lt (by omega), ← Nat.shiftLeft_add_eq_or_of_lt (by omega)]
  omega

/-- The two halves of a word change places. -/
lemma toNat_swapBytes16 (x : UInt16) :
    (swapBytes16 x).toNat = x.toNat % 256 * 256 + x.toNat / 256 := by
  have hx := x.toNat_lt
  simp only [swapBytes16, UInt16.toNat_or, UInt16.toNat_shiftLeft, UInt16.toNat_shiftRight,
    UInt16.toNat_and]
  change (255 &&& x.toNat) <<< 8 % 2 ^ 16 ||| (65280 &&& x.toNat) >>> 8 = _
  have hlow : 255 &&& x.toNat = x.toNat % 256 := by
    rw [Nat.and_comm]
    exact Nat.and_two_pow_sub_one_eq_mod x.toNat 8
  have hhigh : (65280 &&& x.toNat) >>> 8 = x.toNat / 256 := by
    rw [Nat.shiftRight_and_distrib, Nat.and_comm, Nat.shiftRight_eq_div_pow]
    change x.toNat / 256 &&& (2 ^ 8 - 1) = _
    rw [Nat.and_two_pow_sub_one_eq_mod]
    omega
  rw [hlow, hhigh, Nat.mod_eq_of_lt (by omega), ← Nat.shiftLeft_add_eq_or_of_lt (by omega)]
  omega

/-- Swapping twice changes nothing. -/
@[simp] lemma swapBytes16_swapBytes16 (x : UInt16) : swapBytes16 (swapBytes16 x) = x := by
  have hx := x.toNat_lt
  apply UInt16.toNat.inj
  rw [toNat_swapBytes16, toNat_swapBytes16]
  omega

/-- A stored word is loaded back. -/
@[simp] lemma loadUInt16_storeUInt16 (x : UInt16) :
    loadUInt16 x.toUInt8 (x >>> 8).toUInt8 = x := by
  have hx := x.toNat_lt
  apply UInt16.toNat.inj
  rw [toNat_loadUInt16, UInt16.toNat_toUInt8, UInt16.toNat_toUInt8, UInt16.toNat_shiftRight]
  change x.toNat % 256 + x.toNat >>> 8 % 256 * 256 = _
  omega

/-- A loaded word is stored as the bytes it was loaded from. -/
@[simp] lemma storeUInt16_loadUInt16 (low high : UInt8) :
    storeUInt16 (loadUInt16 low high) = [low, high] := by
  have hlow := low.toNat_lt
  have hhigh := high.toNat_lt
  have hfst : (loadUInt16 low high).toUInt8 = low := by
    apply UInt8.toNat.inj
    rw [UInt16.toNat_toUInt8, toNat_loadUInt16]
    omega
  have hsnd : (loadUInt16 low high >>> 8).toUInt8 = high := by
    apply UInt8.toNat.inj
    rw [UInt16.toNat_toUInt8, UInt16.toNat_shiftRight, toNat_loadUInt16]
    change (low.toNat + high.toNat * 256) >>> 8 % 256 = _
    omega
  rw [storeUInt16, hfst, hsnd]

end ChordPlusPlus
