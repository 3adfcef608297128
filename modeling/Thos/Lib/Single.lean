import Mathlib.Tactic

/-!
# Doubles and singles

The bits of binary64 and binary32 numbers. `toSingle` is the conversion of a double to the nearest
single, ties to even, and `none` where a finite double is beyond the singles; `toDouble` is the
double with the value of a finite single.
-/

set_option autoImplicit false

namespace Thos.Lib

/-- `n / 2 ^ k`, rounded to the nearest integer, ties to even. -/
def halfEven (n k : Nat) : Nat :=
  let q := n / 2 ^ k
  let r := n % 2 ^ k
  if 2 ^ k < 2 * r ∨ (2 * r = 2 ^ k ∧ q % 2 = 1) then q + 1 else q

/-- Exponent and fraction of the single nearest to a finite double, read as one number. The
exponents below 897 give subnormal singles, in units of `2 ^ (-149)`. -/
def roundToSingle (e m : Nat) : Nat :=
  if 896 < e then halfEven ((e - 896) * 4503599627370496 + m) 29
  else if 0 < e then halfEven (4503599627370496 + m) (926 - e)
  else halfEven m 925

/-- The bits of the single for the bits of a double. -/
def toSingle (x : Nat) : Option Nat :=
  let sign := x / 9223372036854775808 * 2147483648
  let e := x / 4503599627370496 % 2048
  let m := x % 4503599627370496
  if e = 2047 then some (sign + 2139095040 + if m = 0 then 0 else 4194304)
  else if roundToSingle e m < 2139095040 then some (sign + roundToSingle e m)
  else none

/-- The bits of the double with the value of a positive finite single. -/
def toDouble (w : Nat) : Nat :=
  let e := w / 8388608
  let f := w % 8388608
  if e = 0 then
    (f.log2 + 874) * 4503599627370496 + (f - 2 ^ f.log2) * 2 ^ (52 - f.log2)
  else (e + 896) * 4503599627370496 + f * 536870912

theorem halfEven_mul (q k : Nat) : halfEven (q * 2 ^ k) k = q := by
  have hpos : 0 < 2 ^ k := Nat.two_pow_pos k
  simp only [halfEven, Nat.mul_mod_left, Nat.mul_div_cancel q hpos]
  rw [if_neg (by omega)]

theorem toSingle_toDouble_subnormal {f : Nat} (h0 : 0 < f) (hlt : f < 8388608) :
    toSingle (toDouble f) = some f := by
  have hk : 2 ^ f.log2 ≤ f := Nat.log2_self_le (by omega)
  have hk' : f < 2 ^ (f.log2 + 1) := Nat.lt_log2_self
  have hlog : f.log2 ≤ 22 := by
    by_contra hbig
    have : 2 ^ 23 ≤ 2 ^ f.log2 := Nat.pow_le_pow_right (by omega) (by omega)
    omega
  have hprod : 2 ^ f.log2 * 2 ^ (52 - f.log2) = 4503599627370496 := by
    rw [← Nat.pow_add, show f.log2 + (52 - f.log2) = 52 by omega]
  have hm : (f - 2 ^ f.log2) * 2 ^ (52 - f.log2) + 4503599627370496 = f * 2 ^ (52 - f.log2) := by
    rw [← hprod, ← Nat.add_mul, Nat.sub_add_cancel hk]
  have hm' : f * 2 ^ (52 - f.log2) < 2 * 4503599627370496 := by
    rw [← hprod, ← Nat.mul_assoc, Nat.mul_comm 2, ← Nat.pow_succ]
    exact Nat.mul_lt_mul_of_pos_right hk' (Nat.two_pow_pos _)
  generalize hfrac : (f - 2 ^ f.log2) * 2 ^ (52 - f.log2) = m at hm
  have hx : toDouble f = (f.log2 + 874) * 4503599627370496 + m := by
    rw [toDouble, Nat.div_eq_of_lt hlt, Nat.mod_eq_of_lt hlt, if_pos rfl, hfrac]
  have he : toDouble f / 4503599627370496 % 2048 = f.log2 + 874 := by omega
  have hmod : toDouble f % 4503599627370496 = m := by omega
  have hsign : toDouble f / 9223372036854775808 = 0 := by omega
  have hround : roundToSingle (f.log2 + 874) m = f := by
    rw [roundToSingle, if_neg (by omega), if_pos (by omega), Nat.add_comm, hm,
      show 926 - (f.log2 + 874) = 52 - f.log2 by omega, halfEven_mul]
  simp only [toSingle, he, hmod, hsign, hround]
  rw [if_neg (by omega), if_pos (by omega)]
  simp

theorem toSingle_toDouble_normal {w : Nat} (h0 : 8388608 ≤ w) (hlt : w < 2139095040) :
    toSingle (toDouble w) = some w := by
  have hx : toDouble w = (w / 8388608 + 896) * 4503599627370496 + w % 8388608 * 536870912 := by
    rw [toDouble, if_neg (by omega)]
  have he : toDouble w / 4503599627370496 % 2048 = w / 8388608 + 896 := by omega
  have hmod : toDouble w % 4503599627370496 = w % 8388608 * 536870912 := by omega
  have hsign : toDouble w / 9223372036854775808 = 0 := by omega
  have hround : roundToSingle (w / 8388608 + 896) (w % 8388608 * 536870912) = w := by
    rw [roundToSingle, if_pos (by omega), Nat.add_sub_cancel,
      show w / 8388608 * 4503599627370496 + w % 8388608 * 536870912 = w * 2 ^ 29 by omega,
      halfEven_mul]
  simp only [toSingle, he, hmod, hsign, hround]
  rw [if_neg (by omega), if_pos (by omega)]
  simp

theorem toSingle_toDouble {w : Nat} (h0 : 0 < w) (hlt : w < 2139095040) :
    toSingle (toDouble w) = some w := by
  rcases lt_or_ge w 8388608 with hsub | hnorm
  · exact toSingle_toDouble_subnormal h0 hsub
  · exact toSingle_toDouble_normal hnorm hlt

end Thos.Lib
