import Mathlib.Data.List.Range

/-!
# Loops with a wrapping counter

A loop over a container of a given size counts with a machine word, so the
counter returns to zero at the modulus of the word. The loop visits every
element once and ends when the size is below the modulus. A larger container
is never left, unless the body throws.
-/

set_option autoImplicit false

namespace Orbis.CounterLoop

variable {σ ε : Type} {modulus size : ℕ} {body : ℕ → σ → Except ε σ}

/-- The state after `for (i = 0; i < size; ++i)`, or what the body threw;
nothing if the fuel runs out before the loop ends. -/
def forLoop (modulus size : ℕ) (body : ℕ → σ → Except ε σ) :
    ℕ → ℕ → σ → Option (Except ε σ)
  | 0, _, _ => none
  | fuel + 1, i, s =>
    if i < size then
      match body i s with
      | .error e => some (.error e)
      | .ok s' => forLoop modulus size body fuel ((i + 1) % modulus) s'
    else some (.ok s)

def visit (body : ℕ → σ → Except ε σ) (i n : ℕ) (s : σ) : Except ε σ :=
  (List.range' i n).foldlM (fun s j => body j s) s

theorem visit_succ (i n : ℕ) (s : σ) :
    visit body i (n + 1) s = (body i s).bind (visit body (i + 1) n) := by
  rw [visit, List.range'_succ, List.foldlM_cons]
  rfl

theorem forLoop_short (hs : size < modulus) (n i : ℕ) (hi : i + n = size) (s : σ) :
    forLoop modulus size body (n + 1) i s = some (visit body i n s) := by
  induction n generalizing i s with
  | zero =>
    rw [forLoop, if_neg (by omega)]
    rfl
  | succ _ ih =>
    have hn : (i + 1) % modulus = i + 1 := Nat.mod_eq_of_lt (by omega)
    rw [forLoop, if_pos (by omega), visit_succ, hn]
    cases body i s with
    | error _ => rfl
    | ok s' => exact ih (i + 1) (by omega) s'

theorem forLoop_endless (hsi : modulus ≤ size) (hb : ∀ i s, i < size → ∃ s', body i s = .ok s')
    (fuel i : ℕ) (hi : i < modulus) (s : σ) : forLoop modulus size body fuel i s = none := by
  induction fuel generalizing i s with
  | zero => rfl
  | succ _ ih =>
    obtain ⟨s',hs'⟩ := hb i s (by omega)
    rw [forLoop, if_pos (by omega), hs']
    exact ih _ (Nat.mod_lt _ (by omega)) s'

theorem forLoop_unique {fuel fuel' i : ℕ} {s : σ} {r r' : Except ε σ}
    (h : forLoop modulus size body fuel i s = some r)
    (h' : forLoop modulus size body fuel' i s = some r') : r = r' := by
  induction fuel generalizing fuel' i s with
  | zero => cases h
  | succ _ ih =>
    cases fuel' with
    | zero => cases h'
    | succ _ =>
      rw [forLoop] at h h'
      by_cases hi : i < size
      · rw [if_pos hi] at h h'
        cases hb : body i s with
        | error _ =>
          rw [hb] at h h'
          cases h
          cases h'
          rfl
        | ok _ =>
          rw [hb] at h h'
          exact ih h h'
      · rw [if_neg hi] at h h'
        cases h
        cases h'
        rfl

end Orbis.CounterLoop
