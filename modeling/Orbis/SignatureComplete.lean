import Mathlib.Data.ZMod.Basic
import Orbis.ChainImage

/-!
# Generated signatures pass their check

A ring signature takes random challenges and responses for all members but the
signer, hashes the commitments of the whole ring and gives the signer the
challenge that is left. The loop of the check computes the same commitments,
the one of the signer because the responses open it, and the challenges add up
to the hash. Random scalars are arguments, one pair for each round.
-/

set_option autoImplicit false

namespace Orbis.SignatureComplete

open ChainTypes ChainSignature ChainImage

structure SignerOps extends CurveOps where
  geScalarmultBase : ℕ → Point
  geScalarmult : ℕ → Point → Point

structure ImplementsSigner (ops : SignerOps) [AddCommGroup ops.Point] (base : ops.Point) : Prop
    extends ImplementsCurve ops.toCurveOps base where
  scalarmultBase : ∀ a, ops.geScalarmultBase a = a • base
  scalarmult : ∀ a p, ops.geScalarmult a p = a • p
  reduced : ∀ h key comm, ops.hashToScalar h key comm < ops.scalarOrder

namespace SignerOps

variable (ops : SignerOps)

def scMulsub (a b c : ℕ) : ℕ := ops.scSub c (a * b)

def publicKeyOf (sec : ℕ) : PublicKey := ops.geToBytes (ops.geScalarmultBase sec)

def generateSignature (prefixHash : Hash) (pub : PublicKey) (sec k : ℕ) : Signature :=
  let c := ops.hashToScalar prefixHash pub (ops.geToBytes (ops.geScalarmultBase k))
  ⟨c, ops.scMulsub c sec k⟩

def generateKeyImage (pub : PublicKey) (sec : ℕ) : KeyImage :=
  ops.geToBytes (ops.geScalarmult sec (ops.hashToEc pub))

/-- The loop over the ring, from round `i`: the sum of the challenges and the
commitments. The signer uses only the first scalar of the round. -/
def ringLoop (image : ops.Point) (secIndex : ℕ) (random : ℕ → Signature) :
    ℕ → List PublicKey → ℕ → Except Fault (ℕ × List (ℕ × ℕ))
  | _, [], sum => .ok (sum, [])
  | i, pub :: rest, sum =>
    if i = secIndex then do
      let a := ops.geToBytes (ops.geScalarmultBase (random i).c)
      let b := ops.geToBytes (ops.geScalarmult (random i).c (ops.hashToEc pub))
      let (total, ab) ← ringLoop image secIndex random (i + 1) rest sum
      .ok (total, (a, b) :: ab)
    else
      match ops.geFromBytes pub with
      | none => .error .aborted
      | some point => do
        let a := ops.geToBytes (ops.geDoubleScalarmultBase (random i).c point (random i).r)
        let b := ops.geToBytes
          (ops.geDoubleScalarmultPrecomp (random i).r (ops.hashToEc pub) (random i).c image)
        let (total, ab) ← ringLoop image secIndex random (i + 1) rest
          (ops.scAdd sum (random i).c)
        .ok (total, (a, b) :: ab)

def signatures (sig : ℕ → Signature) : ℕ → List PublicKey → List Signature
  | _, [] => []
  | i, _ :: rest => sig i :: signatures sig (i + 1) rest

def generateRingSignature (prefixHash : Hash) (image : KeyImage) (pubs : List PublicKey)
    (sec secIndex : ℕ) (random : ℕ → Signature) : Except Fault (List Signature) :=
  match ops.geFromBytes image with
  | none => .error .aborted
  | some imageUnp => do
    let (sum, ab) ← ops.ringLoop imageUnp secIndex random 0 pubs 0
    let c := ops.scSub (ops.ringHashToScalar prefixHash ab) sum
    let r := ops.scMulsub c sec (random secIndex).c
    .ok (signatures (Function.update random secIndex ⟨c, r⟩) 0 pubs)

end SignerOps

open SignerOps

section Completeness

variable {ops : SignerOps} {im : ops.Point} {secIndex sx : ℕ} {random rnd : ℕ → Signature}

def Opens (image : ops.Point) (pub : PublicKey) (k : ℕ) (sig : Signature) : Prop :=
  ∃ point, ops.geFromBytes pub = some point ∧
    ops.geDoubleScalarmultBase sig.c point sig.r = ops.geScalarmultBase k ∧
    ops.geDoubleScalarmultPrecomp sig.r (ops.hashToEc pub) sig.c image =
      ops.geScalarmult k (ops.hashToEc pub)

theorem loops_agree {own : Signature} {pubs : List PublicKey} (i sum s : ℕ)
    (hk : ∀ pub ∈ pubs, ops.checkKey pub = true)
    (ho : ∀ j pub, pubs[j]? = some pub → i + j = sx →
      Opens im pub (rnd sx).c own)
    (hown : own.c < ops.scalarOrder ∧ own.r < ops.scalarOrder)
    (hra : ∀ j, (rnd j).c < ops.scalarOrder ∧ (rnd j).r < ops.scalarOrder) :
    ∃ total ab found, ops.ringLoop im sx rnd i pubs sum = .ok (total, ab) ∧
      ops.ringCommitments im
        (pubs.zip (signatures (Function.update rnd sx own) i pubs)) s =
          .ok (some (found, ab)) ∧
      (found + sum : ZMod ops.scalarOrder) =
        s + total + if i ≤ sx ∧ sx < i + pubs.length then own.c else 0 := by
  induction pubs generalizing i sum s with
  | nil => exact ⟨sum,[],s,rfl,rfl,by rw [if_neg (by simp)]; ring⟩
  | cons pub rest ih =>
    rw [List.forall_mem_cons] at hk
    have hr : ∀ j pub, rest[j]? = some pub → i + 1 + j = sx → Opens im pub (rnd sx).c own :=
      fun j pub hj hi => ho (j + 1) pub hj (by omega)
    rw [signatures, List.zip_cons_cons]
    simp only [ringLoop, CurveOps.ringCommitments, CurveOps.scCheck]
    by_cases hi : i = sx
    · subst hi
      obtain ⟨point,hp,ha,hb⟩ := ho 0 pub rfl rfl
      obtain ⟨total,ab,found,hl,hc,hsum⟩ := ih (i + 1) sum (ops.scAdd s own.c) hk.2 hr
      refine ⟨total,(ops.geToBytes (ops.geScalarmultBase (rnd i).c),
        ops.geToBytes (ops.geScalarmult (rnd i).c (ops.hashToEc pub))) :: ab,found,?_,?_,?_⟩
      · rw [if_pos rfl, hl]
        rfl
      · simp [hown, hp, hc, ha, hb]
      · rw [if_neg (by omega)] at hsum
        rw [hsum, if_pos (by simp), CurveOps.scAdd, ZMod.natCast_mod]
        push_cast
        ring
    · obtain ⟨point,hp⟩ := Option.isSome_iff_exists.mp hk.1
      obtain ⟨total,ab,found,hl,hc,hsum⟩ := ih (i + 1) (ops.scAdd sum (rnd i).c)
        (ops.scAdd s (rnd i).c) hk.2 hr
      refine ⟨total,(ops.geToBytes (ops.geDoubleScalarmultBase (rnd i).c point (rnd i).r),
        ops.geToBytes (ops.geDoubleScalarmultPrecomp (rnd i).r (ops.hashToEc pub) (rnd i).c
          im)) :: ab,found,?_,?_,?_⟩
      · rw [if_neg hi, hp]
        simp only [hl]
        rfl
      · simp [hi, hra i, hp, hc]
      · have hs : (i + 1 ≤ sx ∧ sx < i + 1 + rest.length) ↔
            (i ≤ sx ∧ sx < i + (pub :: rest).length) := by
          rw [List.length_cons]
          omega
        simp only [hs, CurveOps.scAdd, ZMod.natCast_mod, Nat.cast_add] at hsum
        linear_combination hsum

theorem nsmul_congr {n a b : ℕ} {G : Type} [AddCommGroup G] {x : G} (hx : n • x = 0)
    (h : a ≡ b [MOD n]) : a • x = b • x :=
  nsmul_eq_nsmul_iff_modEq.mpr (h.of_dvd (addOrderOf_dvd_of_nsmul_eq_zero hx))

theorem scSub_lt (x y : ℕ) : ops.scSub x y < ops.scalarOrder := Nat.mod_lt _ ops.scalarOrder_pos

variable [AddCommGroup ops.Point] {base : ops.Point}

theorem mulsub_opens (c sec k : ℕ) {x : ops.Point} (hx : ops.scalarOrder • x = 0) :
    c • sec • x + ops.scMulsub c sec k • x = k • x := by
  rw [← mul_nsmul', ← add_nsmul]
  refine nsmul_congr hx ?_
  rw [Nat.add_comm]
  exact scSub_add ops.toCurveOps k (c * sec)

theorem opens_own (hops : ImplementsSigner ops base) (c sec k : ℕ) :
    Opens (ops.geScalarmult sec (ops.hashToEc (ops.publicKeyOf sec)))
      (ops.publicKeyOf sec) k ⟨c, ops.scMulsub c sec k⟩ := by
  refine ⟨_,hops.decode _,?_,?_⟩
  · rw [hops.doubleBase, hops.scalarmultBase, hops.scalarmultBase]
    exact mulsub_opens c sec k hops.base_order
  · rw [hops.doublePrecomp, hops.scalarmult, hops.scalarmult, add_comm]
    exact mulsub_opens c sec k (hops.hash_order _)

theorem ringSignature_complete (hops : ImplementsSigner ops base) (prefixHash : Hash) (sec : ℕ)
    {pubs : List PublicKey} (hk : ∀ pub ∈ pubs, ops.checkKey pub = true)
    (hpub : pubs[secIndex]? = some (ops.publicKeyOf sec))
    (hra : ∀ i, (random i).c < ops.scalarOrder ∧ (random i).r < ops.scalarOrder) :
    ∃ sigs, ops.generateRingSignature prefixHash
        (ops.generateKeyImage (ops.publicKeyOf sec) sec) pubs sec secIndex random = .ok sigs ∧
      ops.checkRingSignature prefixHash
        (ops.generateKeyImage (ops.publicKeyOf sec) sec) pubs sigs = .ok true := by
  have ho : ∀ c j pub, pubs[j]? = some pub → 0 + j = secIndex →
      Opens (ops.geScalarmult sec (ops.hashToEc (ops.publicKeyOf sec))) pub
        (random secIndex).c ⟨c, ops.scMulsub c sec (random secIndex).c⟩ := by
    intro c j pub hj hi
    rw [Nat.zero_add] at hi
    rw [hi, hpub, Option.some.injEq] at hj
    rw [← hj]
    exact opens_own hops c sec _
  have hlo := fun c hc => loops_agree 0 0 0 hk (ho c) ⟨hc,scSub_lt _ (c * sec)⟩ hra
  -- the loop of the signer does not depend on the challenge that it leaves
  obtain ⟨total,ab,-,hl,-⟩ := hlo 0 ops.scalarOrder_pos
  obtain ⟨_,_,found,hl',hc,hsum⟩ :=
    hlo (ops.scSub (ops.ringHashToScalar prefixHash ab) total) (scSub_lt _ _)
  rw [hl] at hl'
  cases hl'
  simp only [generateRingSignature, generateKeyImage, hops.decode, hl]
  refine ⟨_,rfl,?_⟩
  have hin : secIndex < pubs.length := (List.getElem?_eq_some_iff.mp hpub).1
  have hr := scSub_add ops.toCurveOps (ops.ringHashToScalar prefixHash ab) total
  rw [if_pos (by omega)] at hsum
  have heq : ops.ringHashToScalar prefixHash ab ≡ found [MOD ops.scalarOrder] := by
    rw [← ZMod.natCast_eq_natCast_iff] at hr ⊢
    push_cast at hr hsum
    linear_combination -hr - hsum
  simp [CurveOps.checkRingSignature, hops.decode, hc, (scSub_eq_zero_iff _ _ _).mpr heq]

/-- Every generated signature passes its check: the single one, and the one of
any ring of curve points at any position, whatever scalars are drawn. -/
theorem signatures_complete (hops : ImplementsSigner ops base) (prefixHash : Hash) (sec : ℕ) :
    (∀ k, ops.checkSignature prefixHash (ops.publicKeyOf sec)
      (ops.generateSignature prefixHash (ops.publicKeyOf sec) sec k) = .ok true) ∧
    ∀ (pubs : List PublicKey) (secIndex : ℕ) (random : ℕ → Signature),
      (∀ pub ∈ pubs, ops.checkKey pub = true) → pubs[secIndex]? = some (ops.publicKeyOf sec) →
      (∀ i, (random i).c < ops.scalarOrder ∧ (random i).r < ops.scalarOrder) →
      ∃ sigs, ops.generateRingSignature prefixHash
          (ops.generateKeyImage (ops.publicKeyOf sec) sec) pubs sec secIndex random = .ok sigs ∧
        ops.checkRingSignature prefixHash
          (ops.generateKeyImage (ops.publicKeyOf sec) sec) pubs sigs = .ok true := by
  constructor
  · intro k
    obtain ⟨_,hp,ha,-⟩ := opens_own hops (ops.hashToScalar prefixHash
      (ops.publicKeyOf sec) (ops.geToBytes (ops.geScalarmultBase k))) sec k
    dsimp only at ha
    rw [CurveOps.checkSignature, hp]
    simp [generateSignature, CurveOps.scCheck, hops.reduced, ha, scSub_eq_zero_iff,
      show ∀ a b c, ops.scMulsub a b c < ops.scalarOrder from fun _ _ _ => scSub_lt _ _]
    rfl
  · intro pubs secIndex random hk hpub hra
    exact ringSignature_complete hops prefixHash sec hk hpub hra

end Completeness

def sampleSigner : SignerOps :=
  { cyclicOps with
    geScalarmultBase := fun a => Fin.ofNat (8 * order) (a * 8)
    geScalarmult := fun a p => Fin.ofNat (8 * order) (a * p.val) }

instance : AddCommGroup sampleSigner.Point := inferInstanceAs (AddCommGroup (Fin (8 * order)))

theorem ofNat_mul_val (a : ℕ) (p : Fin (8 * order)) : Fin.ofNat (8 * order) (a * p.val) = a • p :=
  Fin.ext (by rw [val_nsmul, Fin.val_ofNat])

theorem sampleSigner_implements : ImplementsSigner sampleSigner (Fin.ofNat (8 * order) 8) :=
  { cyclicOps_curve with
    scalarmultBase := fun a => ofNat_mul_val a (Fin.ofNat (8 * order) 8)
    scalarmult := ofNat_mul_val
    reduced := fun _ _ _ => Nat.mod_lt _ (by decide) }

theorem signatures_complete_sample : ∃ sigs, sampleSigner.generateRingSignature 7
        (sampleSigner.generateKeyImage (sampleSigner.publicKeyOf 5) 5) [16, 40, 24] 5 1
        (fun _ => ⟨3, 4⟩) = .ok sigs ∧ sampleSigner.checkRingSignature 7
        (sampleSigner.generateKeyImage (sampleSigner.publicKeyOf 5) 5) [16, 40, 24]
        sigs = .ok true :=
  (signatures_complete sampleSigner_implements 7 5).2 [16, 40, 24] 1 (fun _ => ⟨3, 4⟩)
    (by decide +kernel) (by decide +kernel) fun _ => by decide +kernel

end Orbis.SignatureComplete
