import Mathlib.Algebra.Order.Field.Rat
import Mathlib.Data.Prod.Lex
import Orbis.ChainReady

/-!
# The order of the fee index

The comparator multiplies each fee with the other size in 128 bits. This is
the comparison of the exact prices, so it is the lexicographic order of price,
size and time and has the properties that the ordered index relies on.
-/

set_option autoImplicit false

namespace Orbis.ChainPriority

open WideArithmetic ChainPool ChainReady

def price (d : TransactionDetails) : ℚ := d.fee.toNat / d.blobSize.toNat

def key (d : TransactionDetails) : ℚᵒᵈ ×ₗ ℕ ×ₗ ℕ :=
  toLex (OrderDual.toDual (price d), toLex (d.blobSize.toNat, d.receiveTime.toNat))

variable {a b : TransactionDetails}

theorem wide_lt_iff (l r : UInt64 × UInt64) :
    wide r < wide l ↔ r.1 < l.1 ∨ l.1 = r.1 ∧ r.2 < l.2 := by
  have hl := l.2.toNat_lt
  have hr := r.2.toNat_lt
  rw [wide, wide, UInt64.lt_iff_toNat_lt, UInt64.lt_iff_toNat_lt, ← UInt64.toNat_inj]
  omega

theorem wide_inj {l r : UInt64 × UInt64} (h : wide l = wide r) : l = r := by
  have hl := l.2.toNat_lt
  have hr := r.2.toNat_lt
  unfold wide at h
  refine Prod.ext (UInt64.toNat_inj.mp ?_) (UInt64.toNat_inj.mp ?_) <;> omega

theorem price_lt_iff (ha : 0 < a.blobSize) (hb : 0 < b.blobSize) : price b < price a ↔
    wide (mul128 b.fee a.blobSize) < wide (mul128 a.fee b.blobSize) := by
  have ha : (0 : ℚ) < a.blobSize.toNat := by exact_mod_cast UInt64.lt_iff_toNat_lt.mp ha
  have hb : (0 : ℚ) < b.blobSize.toNat := by exact_mod_cast UInt64.lt_iff_toNat_lt.mp hb
  rw [price, price, div_lt_div_iff₀ hb ha, mul128_eq, mul128_eq]
  exact_mod_cast Iff.rfl

theorem price_eq_iff (ha : 0 < a.blobSize) (hb : 0 < b.blobSize) : price a = price b ↔
    mul128 a.fee b.blobSize = mul128 b.fee a.blobSize := by
  have hlt := price_lt_iff ha hb
  have hgt := price_lt_iff hb ha
  constructor
  · intro h
    rw [h, lt_self_iff_false, false_iff] at hlt hgt
    exact wide_inj (le_antisymm (not_lt.mp hlt) (not_lt.mp hgt))
  · intro h
    rw [h, lt_self_iff_false, iff_false] at hlt hgt
    exact le_antisymm (not_lt.mp hlt) (not_lt.mp hgt)

theorem key_lt_iff : key a < key b ↔ price b < price a ∨ price a = price b ∧
    (a.blobSize < b.blobSize ∨ a.blobSize = b.blobSize ∧ a.receiveTime < b.receiveTime) := by
  rw [key, key, Prod.Lex.toLex_lt_toLex, Prod.Lex.toLex_lt_toLex, UInt64.toNat_inj]
  rfl

theorem prior_iff (ha : 0 < a.blobSize) (hb : 0 < b.blobSize) :
    prior a b = true ↔ key a < key b := by
  rw [key_lt_iff, price_lt_iff ha hb, price_eq_iff ha hb, wide_lt_iff, Prod.ext_iff]
  simp only [prior, Bool.or_eq_true, Bool.and_eq_true, decide_eq_true_eq, beq_iff_eq, gt_iff_lt,
    or_assoc, and_assoc, and_or_left]

/-- On entries of a positive size the comparator is a strict weak order, and
the one of the exact fee per byte. -/
theorem prior_strict_weak_order :
    IsStrictWeakOrder {d : TransactionDetails // 0 < d.blobSize} (prior ·.1 ·.1 = true) ∧
      ∀ a b : {d : TransactionDetails // 0 < d.blobSize},
        (prior a.1 b.1 = true ↔ price b.1 < price a.1 ∨ price a.1 = price b.1 ∧
          (a.1.blobSize < b.1.blobSize ∨
            a.1.blobSize = b.1.blobSize ∧ a.1.receiveTime < b.1.receiveTime)) := by
  have h : ∀ a b : {d : TransactionDetails // 0 < d.blobSize},
      prior a.1 b.1 = true ↔ key a.1 < key b.1 := fun a b => prior_iff a.2 b.2
  refine ⟨@IsStrictWeakOrder.mk _ _ (@IsStrictOrder.mk _ _ ⟨fun a => ?_⟩ ⟨fun a b c => ?_⟩)
    fun a b c => ?_,fun a b => (h a b).trans key_lt_iff⟩
  · rw [h]
    exact lt_irrefl _
  · rw [h, h, h]
    exact lt_trans
  · simp only [h, not_lt]
    exact fun hab hbc => ⟨hbc.1.trans hab.1,hab.2.trans hbc.2⟩

end Orbis.ChainPriority
