import Mathlib.Tactic

/-!
# 128-bit products and quotients over 64-bit words

`mul128` multiplies two words by their 32-bit halves and returns the two
words of the product; `div128_32` divides a two-word number by a 32-bit one
by long division in base `2 ^ 32`. Both are compared with the operations on
natural numbers.
-/

set_option autoImplicit false

namespace Orbis.WideArithmetic

variable {rem dv : UInt32} {dd : UInt64} (val : UInt64)

def hiDword (val : UInt64) : UInt64 := val >>> 32

def loDword (val : UInt64) : UInt64 := val &&& 0xFFFFFFFF

def mul128 (multiplier multiplicand : UInt64) : UInt64 × UInt64 :=
  let a := hiDword multiplier
  let b := loDword multiplier
  let c := hiDword multiplicand
  let d := loDword multiplicand
  let ac := a * c
  let ad := a * d
  let bc := b * c
  let bd := b * d
  let adbc := ad + bc
  let adbcCarry : UInt64 := if adbc < ad then 1 else 0
  let productLo := bd + (adbc <<< 32)
  let productLoCarry : UInt64 := if productLo < bd then 1 else 0
  (ac + (adbc >>> 32) + (adbcCarry <<< 32) + productLoCarry, productLo)

def divWithReminder (dividend : UInt64) (divisor remainder : UInt32) : UInt64 × UInt32 :=
  let dividend := dividend ||| (remainder.toUInt64 <<< 32)
  (dividend / divisor.toUInt64, (dividend % divisor.toUInt64).toUInt32)

def div128_32 (dividendHi dividendLo : UInt64) (divisor : UInt32) : UInt64 × UInt64 :=
  let (q3, r3) := divWithReminder (hiDword dividendHi) divisor 0
  let (q2, r2) := divWithReminder (loDword dividendHi) divisor r3
  let (q1, r1) := divWithReminder (hiDword dividendLo) divisor r2
  let (q0, _) := divWithReminder (loDword dividendLo) divisor r1
  ((q3 <<< 32) ||| q2, (q1 <<< 32) ||| q0)

def wide (words : UInt64 × UInt64) : ℕ := words.1.toNat * 2 ^ 64 + words.2.toNat

theorem hiDword_toNat : (hiDword val).toNat = val.toNat / 2 ^ 32 := by
  simp [hiDword, UInt64.toNat_shiftRight, Nat.shiftRight_eq_div_pow]

theorem loDword_toNat : (loDword val).toNat = val.toNat % 2 ^ 32 := by
  have h := Nat.and_two_pow_sub_one_eq_mod val.toNat 32
  simpa [loDword, UInt64.toNat_and] using h

theorem shiftLeft_toNat : (val <<< (32 : UInt64)).toNat = val.toNat * 2 ^ 32 % 2 ^ 64 := by
  simp [UInt64.toNat_shiftLeft, Nat.shiftLeft_eq]

theorem halves_eq : (hiDword val).toNat * 2 ^ 32 + (loDword val).toNat = val.toNat := by
  rw [hiDword_toNat, loDword_toNat]
  omega

theorem hiDword_lt : (hiDword val).toNat < 2 ^ 32 := by
  have h := val.toNat_lt
  rw [hiDword_toNat]
  omega

theorem loDword_lt : (loDword val).toNat < 2 ^ 32 := by
  rw [loDword_toNat]
  omega

theorem half_product_le {x y : ℕ} (hx : x < 2 ^ 32) (hy : y < 2 ^ 32) :
    x * y ≤ (2 ^ 32 - 1) * (2 ^ 32 - 1) :=
  Nat.mul_le_mul (by omega) (by omega)

theorem half_product_toNat {x y : UInt64} (hx : x.toNat < 2 ^ 32) (hy : y.toNat < 2 ^ 32) :
    (x * y).toNat = x.toNat * y.toNat := by
  have h := half_product_le hx hy
  rw [UInt64.toNat_mul, Nat.mod_eq_of_lt (by omega)]

theorem mul128_eq (mr md : UInt64) : wide (mul128 mr md) = mr.toNat * md.toNat := by
  have ha := hiDword_lt mr
  have hb := loDword_lt mr
  have hc := hiDword_lt md
  have hd := loDword_lt md
  have hac := half_product_toNat ha hc
  have had := half_product_toNat ha hd
  have hbc := half_product_toNat hb hc
  have hbd := half_product_toNat hb hd
  have hacLe := half_product_le ha hc
  have hadLe := half_product_le ha hd
  have hbcLe := half_product_le hb hc
  have hbdLe := half_product_le hb hd
  have hpr : mr.toNat * md.toNat = (hiDword mr).toNat * (hiDword md).toNat * 2 ^ 64 +
        ((hiDword mr).toNat * (loDword md).toNat +
          (loDword mr).toNat * (hiDword md).toNat) * 2 ^ 32 +
        (loDword mr).toNat * (loDword md).toNat := by
    conv_lhs => rw [← halves_eq mr, ← halves_eq md]
    ring
  rw [hpr]
  unfold wide mul128
  simp only [UInt64.toNat_add, UInt64.lt_iff_toNat_lt, shiftLeft_toNat, hac, had, hbc, hbd,
    apply_ite UInt64.toNat, UInt64.toNat_shiftRight]
  simp only [UInt64.toNat_one, UInt64.toNat_zero, Nat.shiftRight_eq_div_pow]
  generalize (hiDword mr).toNat * (hiDword md).toNat = ac at *
  generalize (hiDword mr).toNat * (loDword md).toNat = ad at *
  generalize (loDword mr).toNat * (hiDword md).toNat = bc at *
  generalize (loDword mr).toNat * (loDword md).toNat = bd at *
  simp
  split_ifs <;> omega

theorem mul128_small {a b : UInt64} (h : a.toNat * b.toNat < 2 ^ 64) :
    mul128 a b = (0, UInt64.ofNat (a.toNat * b.toNat)) := by
  have hw := mul128_eq a b
  unfold wide at hw
  have hlow := (mul128 a b).2.toNat_lt
  have hh : (mul128 a b).1.toNat = 0 := by omega
  apply Prod.ext
  · exact UInt64.toNat_inj.mp hh
  · apply UInt64.toNat_inj.mp
    rw [UInt64.toNat_ofNat_of_lt' h]
    omega

theorem or_shiftLeft_toNat {low high : UInt64} (hlow : low.toNat < 2 ^ 32)
    (hh : high.toNat < 2 ^ 32) :
    (low ||| (high <<< (32 : UInt64))).toNat = high.toNat * 2 ^ 32 + low.toNat := by
  have hor := Nat.two_pow_add_eq_or_of_lt hlow high.toNat
  rw [UInt64.toNat_or, shiftLeft_toNat, Nat.mod_eq_of_lt (by omega), Nat.or_comm,
    Nat.mul_comm, ← hor]

theorem shiftLeft_or_toNat {low high : UInt64} (hlow : low.toNat < 2 ^ 32)
    (hh : high.toNat < 2 ^ 32) :
    ((high <<< (32 : UInt64)) ||| low).toNat = high.toNat * 2 ^ 32 + low.toNat := by
  rw [UInt64.or_comm, or_shiftLeft_toNat hlow hh]

theorem long_division_digit {remainder digit divisor : ℕ} (hd : digit < 2 ^ 32)
    (hr : remainder < divisor) : (remainder * 2 ^ 32 + digit) / divisor < 2 ^ 32 := by
  rw [Nat.div_lt_iff_lt_mul (by omega)]
  nlinarith

theorem divWithReminder_quotient (hdvd : dd.toNat < 2 ^ 32) : (divWithReminder dd dv rem).1.toNat =
      (rem.toNat * 2 ^ 32 + dd.toNat) / dv.toNat := by
  have hr : rem.toUInt64.toNat < 2 ^ 32 := by
    simpa using rem.toNat_lt
  simp only [divWithReminder]
  rw [UInt64.toNat_div, or_shiftLeft_toNat hdvd hr]
  simp

theorem divWithReminder_remainder (hdvd : dd.toNat < 2 ^ 32) (hdiv : 0 < dv.toNat) :
    (divWithReminder dd dv rem).2.toNat = (rem.toNat * 2 ^ 32 + dd.toNat) % dv.toNat := by
  have hr : rem.toUInt64.toNat < 2 ^ 32 := by
    simpa using rem.toNat_lt
  have hlt : (rem.toNat * 2 ^ 32 + dd.toNat) % dv.toNat < 2 ^ 32 :=
    (Nat.mod_lt _ hdiv).trans dv.toNat_lt
  simp only [divWithReminder]
  rw [UInt64.toNat_toUInt32, UInt64.toNat_mod, or_shiftLeft_toNat hdvd hr]
  simp only [UInt32.toNat_toUInt64]
  exact Nat.mod_eq_of_lt hlt

theorem digit_step (value digit : ℕ) {divisor : ℕ} (hdiv : 0 < divisor) :
    (value * 2 ^ 32 + digit) / divisor =
      value / divisor * 2 ^ 32 + (value % divisor * 2 ^ 32 + digit) / divisor ∧
    (value * 2 ^ 32 + digit) % divisor = (value % divisor * 2 ^ 32 + digit) % divisor := by
  have hspl : value * 2 ^ 32 + digit =
      (value % divisor * 2 ^ 32 + digit) + divisor * (value / divisor * 2 ^ 32) := by
    have h := Nat.mod_add_div value divisor
    calc value * 2 ^ 32 + digit
        = (value % divisor + divisor * (value / divisor)) * 2 ^ 32 + digit := by rw [h]
      _ = _ := by ring
  refine ⟨?_,?_⟩
  · rw [hspl, Nat.add_mul_div_left _ _ hdiv]
    omega
  · rw [hspl, Nat.add_mul_mod_self_left]

theorem divWithReminder_step (value : ℕ) (hdvd : dd.toNat < 2 ^ 32) (hdiv : 0 < dv.toNat)
    (hr : rem.toNat = value % dv.toNat) : (divWithReminder dd dv rem).1.toNat < 2 ^ 32 ∧
    (value * 2 ^ 32 + dd.toNat) / dv.toNat =
      value / dv.toNat * 2 ^ 32 + (divWithReminder dd dv rem).1.toNat ∧
    (divWithReminder dd dv rem).2.toNat = (value * 2 ^ 32 + dd.toNat) % dv.toNat := by
  have hs := digit_step value dd.toNat hdiv
  have hlt : rem.toNat < dv.toNat := by
    rw [hr]
    exact Nat.mod_lt _ hdiv
  rw [divWithReminder_quotient hdvd, divWithReminder_remainder hdvd hdiv, hs.1, hs.2, hr]
  rw [hr] at hlt
  exact ⟨long_division_digit hdvd hlt,rfl,rfl⟩

theorem div128_32_eq {dividend : UInt64 × UInt64} (hdiv : 0 < dv.toNat) :
    wide (div128_32 dividend.1 dividend.2 dv) = wide dividend / dv.toNat := by
  obtain ⟨hi,lo⟩ := dividend
  obtain ⟨hq3,hv3,hr3⟩ := divWithReminder_step 0 (hiDword_lt hi) hdiv
    (UInt32.toNat_zero.trans (Nat.zero_mod _).symm)
  obtain ⟨hq2,hv2,hr2⟩ := divWithReminder_step _ (loDword_lt hi) hdiv hr3
  obtain ⟨hq1,hv1,hr1⟩ := divWithReminder_step _ (hiDword_lt lo) hdiv hr2
  obtain ⟨hq0,hv0,-⟩ := divWithReminder_step _ (loDword_lt lo) hdiv hr1
  have hval : wide (hi, lo) = (((0 * 2 ^ 32 + (hiDword hi).toNat) * 2 ^ 32 +
      (loDword hi).toNat) * 2 ^ 32 + (hiDword lo).toNat) * 2 ^ 32 + (loDword lo).toNat := by
    change hi.toNat * 2 ^ 64 + lo.toNat = _
    rw [← halves_eq hi, ← halves_eq lo]
    ring
  rw [hval, hv0, hv1, hv2, hv3]
  unfold wide div128_32
  simp only [shiftLeft_or_toNat hq2 hq3, shiftLeft_or_toNat hq0 hq1, Nat.zero_div]
  omega

end Orbis.WideArithmetic
