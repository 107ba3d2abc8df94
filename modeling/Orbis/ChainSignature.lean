import Orbis.ChainTypes

/-!
# Signature checks over the curve operations

The checks are written against the operations of the curve library, which
stay a parameter: decoding and encoding of points, the two double scalar
products, the map of a key to a point and the two challenge hashes. A public
key that does not decode ends the process; a key image that does not decode
only fails the check.
-/

set_option autoImplicit false

namespace Orbis.ChainSignature

open ChainTypes

structure CurveOps where
  Point : Type
  geFromBytes : ℕ → Option Point
  geToBytes : Point → ℕ
  geDoubleScalarmultBase : ℕ → Point → ℕ → Point
  geDoubleScalarmultPrecomp : ℕ → Point → ℕ → Point → Point
  hashToEc : PublicKey → Point
  hashToScalar : Hash → PublicKey → ℕ → ℕ
  ringHashToScalar : Hash → List (ℕ × ℕ) → ℕ
  scalarOrder : ℕ
  scalarOrder_pos : 0 < scalarOrder

namespace CurveOps

variable (ops : CurveOps) {fault : Fault}

def checkKey (key : PublicKey) : Bool := (ops.geFromBytes key).isSome

def scCheck (x : ℕ) : Bool := x < ops.scalarOrder

def scAdd (x y : ℕ) : ℕ := (x + y) % ops.scalarOrder

def scSub (x y : ℕ) : ℕ := (x + (ops.scalarOrder - y % ops.scalarOrder)) % ops.scalarOrder

def checkSignature (prefixHash : Hash) (pub : PublicKey) (sig : Signature) :
    Except Fault Bool :=
  match ops.geFromBytes pub with
  | none => .error .aborted
  | some point =>
    if !ops.scCheck sig.c || !ops.scCheck sig.r then .ok false
    else
      let comm := ops.geToBytes (ops.geDoubleScalarmultBase sig.c point sig.r)
      .ok (ops.scSub (ops.hashToScalar prefixHash pub comm) sig.c == 0)

def ringCommitments (image : ops.Point) :
    List (PublicKey × Signature) → ℕ → Except Fault (Option (ℕ × List (ℕ × ℕ)))
  | [], sum => .ok (some (sum, []))
  | (pub, sig) :: rest, sum =>
    if !ops.scCheck sig.c || !ops.scCheck sig.r then .ok none
    else
      match ops.geFromBytes pub with
      | none => .error .aborted
      | some point =>
        let a := ops.geToBytes (ops.geDoubleScalarmultBase sig.c point sig.r)
        let b := ops.geToBytes
          (ops.geDoubleScalarmultPrecomp sig.r (ops.hashToEc pub) sig.c image)
        match ringCommitments image rest (ops.scAdd sum sig.c) with
        | .error fault => .error fault
        | .ok none => .ok none
        | .ok (some (total, ab)) => .ok (some (total, (a, b) :: ab))

def checkRingSignature (prefixHash : Hash) (image : KeyImage) (pubs : List PublicKey)
    (sigs : List Signature) : Except Fault Bool :=
  match ops.geFromBytes image with
  | none => .ok false
  | some imageUnp =>
    match ops.ringCommitments imageUnp (pubs.zip sigs) 0 with
    | .error fault => .error fault
    | .ok none => .ok false
    | .ok (some (sum, ab)) => .ok (ops.scSub (ops.ringHashToScalar prefixHash ab) sum == 0)

theorem checkSignature_error {ph : Hash} {pub : PublicKey} {sig : Signature}
    (h : ops.checkSignature ph pub sig = .error fault) :
    fault = .aborted ∧ ops.checkKey pub = false := by
  unfold checkSignature at h
  unfold checkKey
  cases hpub : ops.geFromBytes pub with
  | none =>
    rw [hpub] at h
    cases h
    exact ⟨rfl,rfl⟩
  | some _ =>
    rw [hpub] at h
    dsimp only at h
    split_ifs at h

theorem ringCommitments_error {im : ops.Point} {ring : List (PublicKey × Signature)} {sum : ℕ}
    (h : ops.ringCommitments im ring sum = .error fault) :
    fault = .aborted ∧ ∃ mem ∈ ring, ops.checkKey mem.1 = false := by
  induction ring generalizing sum with
  | nil => cases h
  | cons mem rest ih =>
    obtain ⟨pub,sig⟩ := mem
    simp only [ringCommitments] at h
    split_ifs at h
    cases hpub : ops.geFromBytes pub with
    | none =>
      rw [hpub] at h
      cases h
      exact ⟨rfl,(pub, sig),by simp,by simp [checkKey, hpub]⟩
    | some _ =>
      rw [hpub] at h
      cases hr : ops.ringCommitments im rest (ops.scAdd sum sig.c) with
      | error _ =>
        rw [hr] at h
        cases h
        obtain ⟨hflt,m,hm,hkey⟩ := ih hr
        exact ⟨hflt,m,List.mem_cons_of_mem _ hm,hkey⟩
      | ok found =>
        rw [hr] at h
        rcases found with _ | ⟨total,ab⟩ <;> cases h

theorem checkRingSignature_error {ph : Hash} {im : KeyImage} {pubs : List PublicKey}
    {sigs : List Signature} (h : ops.checkRingSignature ph im pubs sigs = .error fault) :
    fault = .aborted ∧ ∃ pub ∈ pubs, ops.checkKey pub = false := by
  unfold checkRingSignature at h
  cases him : ops.geFromBytes im with
  | none =>
    rw [him] at h
    cases h
  | some imageUnp =>
    rw [him] at h
    cases hr : ops.ringCommitments imageUnp (pubs.zip sigs) 0 with
    | error _ =>
      simp only [hr] at h
      cases h
      obtain ⟨hflt,mem,hmbr,hkey⟩ := ops.ringCommitments_error hr
      exact ⟨hflt,mem.1,(List.of_mem_zip hmbr).1,hkey⟩
    | ok found =>
      simp only [hr] at h
      rcases found with _ | ⟨sum,ab⟩ <;> cases h

end CurveOps

end Orbis.ChainSignature
