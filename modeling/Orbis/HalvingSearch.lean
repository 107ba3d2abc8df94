import Mathlib.Tactic

/-!
# Binary search in a range that need not be ordered

The search halves a range of positions and keeps the upper half when the
middle is below the bound. On a range that is not ordered it still ends, and
its result is determined by the positions it compares: it lies just above the
last of them that is below the bound.
-/

set_option autoImplicit false

namespace Orbis.HalvingSearch

/-- The search of `std::lower_bound` among `len` positions from `first` on. -/
def lowerBound (below : ℕ → Bool) (first len : ℕ) : ℕ :=
  if len = 0 then first
  else if below (first + len / 2) then
    lowerBound below (first + len / 2 + 1) (len - len / 2 - 1)
  else lowerBound below first (len / 2)
termination_by len
decreasing_by all_goals omega

variable {below : ℕ → Bool}

inductive Compared (below : ℕ → Bool) : ℕ → ℕ → ℕ → Prop
  | middle {first len : ℕ} (nonempty : 0 < len) : Compared below first len (first + len / 2)
  | upper {first len position : ℕ} (nonempty : 0 < len) (lower : below (first + len / 2) = true)
      (rest : Compared below (first + len / 2 + 1) (len - len / 2 - 1) position) :
      Compared below first len position
  | lower {first len position : ℕ} (nonempty : 0 < len) (higher : below (first + len / 2) = false)
      (rest : Compared below first (len / 2) position) : Compared below first len position

variable {first len position : ℕ}

theorem Compared.range (h : Compared below first len position) :
    first ≤ position ∧ position < first + len := by
  induction h with
  | middle _ => omega
  | upper _ _ _ _ => omega
  | lower _ _ _ _ => omega

theorem lowerBound_range (below : ℕ → Bool) (first len : ℕ) :
    first ≤ lowerBound below first len ∧ lowerBound below first len ≤ first + len := by
  induction len using Nat.strong_induction_on generalizing first with
  | h len ih =>
    rw [lowerBound]
    split_ifs with hz hbel
    · omega
    · have hu := ih (len - len / 2 - 1) (by omega) (first + len / 2 + 1)
      omega
    · have hlw := ih (len / 2) (by omega) first
      omega

theorem lt_lowerBound_iff (hfst : first ≤ position) : position < lowerBound below first len ↔
      ∃ m, Compared below first len m ∧ below m = true ∧ position ≤ m := by
  induction len using Nat.strong_induction_on generalizing first with
  | h len ih =>
    rw [lowerBound]
    split_ifs with hz hbel
    · refine iff_of_false (by omega) ?_
      rintro ⟨m,hm,-,-⟩
      have hrg := hm.range
      omega
    · by_cases hmid : position ≤ first + len / 2
      · refine iff_of_true ?_ ⟨_,.middle (by omega),hbel,hmid⟩
        have hrg := lowerBound_range below (first + len / 2 + 1) (len - len / 2 - 1)
        omega
      · rw [ih (len - len / 2 - 1) (by omega) (by omega)]
        constructor
        · rintro ⟨m,hm,hm',hle⟩
          exact ⟨m,.upper (by omega) hbel hm,hm',hle⟩
        · rintro ⟨m,hm,hm',hle⟩
          cases hm with
          | middle _ => omega
          | upper _ _ rest => exact ⟨m,rest,hm',hle⟩
          | lower _ hi _ =>
            rw [hbel] at hi
            cases hi
    · have hh : below (first + len / 2) = false := by simpa using hbel
      rw [ih (len / 2) (by omega) hfst]
      constructor
      · rintro ⟨m,hm,hm',hle⟩
        exact ⟨m,.lower (by omega) hh hm,hm',hle⟩
      · rintro ⟨m,hm,hm',hle⟩
        cases hm with
        | middle _ => exact absurd hm' hbel
        | upper _ lower _ => exact absurd lower hbel
        | lower _ _ rest => exact ⟨m,rest,hm',hle⟩

theorem lowerBound_eq_end_iff (below : ℕ → Bool) (first len : ℕ) :
    lowerBound below first len = first + len ↔
      ∀ m, Compared below first len m → below m = true := by
  induction len using Nat.strong_induction_on generalizing first with
  | h len ih =>
    rw [lowerBound]
    split_ifs with hz hbel
    · refine iff_of_true (by omega) fun m hm => ?_
      have hrg := hm.range
      omega
    · have hend : first + len = first + len / 2 + 1 + (len - len / 2 - 1) := by omega
      rw [hend, ih (len - len / 2 - 1) (by omega)]
      constructor
      · intro hall m hm
        cases hm with
        | middle _ => exact hbel
        | upper _ _ rest => exact hall m rest
        | lower _ hi _ =>
          rw [hbel] at hi
          cases hi
      · exact fun hall m hm => hall m (.upper (by omega) hbel hm)
    · refine iff_of_false ?_ fun hall => hbel (hall _ (.middle (by omega)))
      have hrg := lowerBound_range below first (len / 2)
      omega

end Orbis.HalvingSearch
