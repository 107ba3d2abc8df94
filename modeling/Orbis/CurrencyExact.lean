import Mathlib.Algebra.Order.Floor.Div
import Mathlib.Data.Nat.Digits.Lemmas
import Orbis.ChainCurrency

/-!
# The rules of the currency on natural numbers

The proof of work, the size penalty and the next difficulty are computed
with 64-bit words and their carries. Each of them is compared here with its
formula on natural numbers, together with the assertions that the source
makes on the way.
-/

set_option autoImplicit false

namespace Orbis.CurrencyExact

open ChainTypes ChainCurrency WideArithmetic

section ProofOfWork

variable (hash : Vector UInt8 32)

def littleEndian : ℕ := Nat.ofDigits 256 (hash.toList.map UInt8.toNat)

def hashWord (i : ℕ) : UInt64 :=
  UInt64.ofNat (Nat.ofDigits 256 (((hash.toList.map UInt8.toNat).drop (8 * i)).take 8))

def cadd (a b : UInt64) : Bool := a + b < a

def cadc (a b : UInt64) (c : Bool) : Bool := a + b < a || (c && a + b == -1)

def checkHash (difficulty : UInt64) : Bool :=
  let (high, top) := mul128 (hashWord hash 3) difficulty
  if high ≠ 0 then false
  else
    let (cur, _) := mul128 (hashWord hash 0) difficulty
    let (high, low) := mul128 (hashWord hash 1) difficulty
    let carry := cadd cur low
    let cur := high
    let (high, low) := mul128 (hashWord hash 2) difficulty
    let carry := cadc cur low carry
    let carry := cadc high top carry
    !carry

theorem cadd_iff (a b : UInt64) : cadd a b = true ↔ 2 ^ 64 ≤ a.toNat + b.toNat := by
  have ha := a.toNat_lt
  have hb := b.toNat_lt
  rw [cadd, decide_eq_true_iff, UInt64.lt_iff_toNat_lt, UInt64.toNat_add]
  omega

theorem cadc_iff (a b : UInt64) (c : Bool) :
    cadc a b c = true ↔ 2 ^ 64 ≤ a.toNat + b.toNat + c.toNat := by
  have ha := a.toNat_lt
  have hb := b.toNat_lt
  have hsum := cadd_iff a b
  have hl : a + b = -1 ↔ (a.toNat + b.toNat) % 2 ^ 64 = 2 ^ 64 - 1 := by
    rw [← UInt64.toNat_inj, UInt64.toNat_add]
    rfl
  rw [cadd, decide_eq_true_iff] at hsum
  rw [cadc, Bool.or_eq_true, decide_eq_true_iff, hsum, Bool.and_eq_true, beq_iff_eq, hl]
  cases c with
  | false => simp
  | true =>
    simp only [true_and, Bool.toNat_true]
    omega

theorem ofDigits_split (digits : List ℕ) (h : 8 ≤ digits.length) : Nat.ofDigits 256 digits =
      Nat.ofDigits 256 (digits.take 8) + 2 ^ 64 * Nat.ofDigits 256 (digits.drop 8) := by
  have ha : Nat.ofDigits 256 (digits.take 8 ++ digits.drop 8) = _ := Nat.ofDigits_append
  rw [List.take_append_drop, List.length_take_of_le h] at ha
  exact ha

theorem hashWord_toNat (i : ℕ) : (hashWord hash i).toNat =
    Nat.ofDigits 256 (((hash.toList.map UInt8.toNat).drop (8 * i)).take 8) := by
  apply UInt64.toNat_ofNat_of_lt'
  have hlt := Nat.ofDigits_lt_base_pow_length (b := 256)
    (l := ((hash.toList.map UInt8.toNat).drop (8 * i)).take 8) (by decide) (by
      intro x hx
      obtain ⟨byte,-,rfl⟩ := List.mem_map.mp (List.mem_of_mem_drop (List.mem_of_mem_take hx))
      exact byte.toNat_lt)
  exact hlt.trans_le (Nat.pow_le_pow_right (by decide) (List.length_take_le _ _))

theorem littleEndian_words : littleEndian hash =
    (hashWord hash 0).toNat + 2 ^ 64 * ((hashWord hash 1).toNat +
      2 ^ 64 * ((hashWord hash 2).toNat + 2 ^ 64 * (hashWord hash 3).toNat)) := by
  have hlen : (hash.toList.map UInt8.toNat).length = 32 := by simp
  simp only [hashWord_toNat, littleEndian]
  rw [ofDigits_split _ (by omega), ofDigits_split (List.drop 8 _) (by simp),
    ofDigits_split (List.drop 8 (List.drop 8 _)) (by simp)]
  simp [List.take_of_length_le]

/-- The word test of the proof of work is the comparison of the whole
product with `2 ^ 256`. -/
theorem checkHash_iff (difficulty : UInt64) :
    checkHash hash difficulty = true ↔ littleEndian hash * difficulty.toNat < 2 ^ 256 := by
  have h0 := mul128_eq (hashWord hash 0) difficulty
  have h1 := mul128_eq (hashWord hash 1) difficulty
  have h2 := mul128_eq (hashWord hash 2) difficulty
  have h3 := mul128_eq (hashWord hash 3) difficulty
  have hpr : littleEndian hash * difficulty.toNat = wide (mul128 (hashWord hash 0) difficulty) +
        2 ^ 64 * (wide (mul128 (hashWord hash 1) difficulty) +
          2 ^ 64 * (wide (mul128 (hashWord hash 2) difficulty) +
            2 ^ 64 * wide (mul128 (hashWord hash 3) difficulty))) := by
    rw [littleEndian_words, h0, h1, h2, h3]
    ring
  rw [hpr]
  unfold checkHash wide
  generalize mul128 (hashWord hash 0) difficulty = p0
  generalize mul128 (hashWord hash 1) difficulty = p1
  generalize mul128 (hashWord hash 2) difficulty = p2
  generalize mul128 (hashWord hash 3) difficulty = p3
  have hlt : ∀ word : UInt64, word.toNat < 2 ^ 64 := UInt64.toNat_lt
  have hlow := hlt p0.2
  by_cases hh : p3.1 = 0
  · have hfst := cadd_iff p0.1 p1.2
    have hsnd := cadc_iff p1.1 p2.2 (cadd p0.1 p1.2)
    have ht := cadc_iff p2.1 p3.2 (cadc p1.1 p2.2 (cadd p0.1 p1.2))
    simp only [hh, ne_eq, not_true_eq_false, if_false, Bool.not_eq_true', UInt64.toNat_zero]
    rw [← Bool.not_eq_true, ht]
    generalize cadd p0.1 p1.2 = first at *
    generalize cadc p1.1 p2.2 first = second at *
    have := hlt p0.1
    have := hlt p1.1
    have := hlt p1.2
    have := hlt p2.1
    have := hlt p2.2
    have := hlt p3.2
    cases first <;> cases second <;>
      simp only [Bool.toNat_true, Bool.toNat_false, Bool.false_eq_true, false_iff, true_iff]
        at hfst hsnd ⊢ <;>
      omega
  · have hpos : p3.1.toNat ≠ 0 := fun h => hh (UInt64.toNat_inj.mp h)
    simp only [ne_eq, hh, not_false_eq_true, if_true, Bool.false_eq_true, false_iff]
    omega

end ProofOfWork

variable {med cur : ℕ}

section Penalty

variable (amt : UInt64) {ms currentBlockSize cb : UInt64}

def penalizedWords (amount medianSize currentBlockSize : UInt64) : UInt64 × UInt64 :=
  let product := mul128 amount (currentBlockSize * (2 * medianSize - currentBlockSize))
  let quotient := div128_32 product.1 product.2 medianSize.toUInt32
  div128_32 quotient.1 quotient.2 medianSize.toUInt32

def penalized (amount medianSize currentBlockSize : ℕ) : ℕ :=
  amount * (currentBlockSize * (2 * medianSize - currentBlockSize)) / (medianSize * medianSize)

theorem square_split (hlow : med ≤ cur) (hh : cur ≤ 2 * med) :
    cur * (2 * med - cur) + (cur - med) * (cur - med) = med * med := by
  obtain ⟨excess,rfl⟩ := Nat.exists_eq_add_of_le hlow
  obtain ⟨rest,_⟩ := Nat.exists_eq_add_of_le hh
  rw [show 2 * med - (med + excess) = rest by omega,
    show med + excess - med = excess by omega, show med = excess + rest by omega]
  ring

theorem penalized_lt {am : ℕ} (ham : 0 < am) (hlow : med < cur)
    (hh : cur ≤ 2 * med) : penalized am med cur < am := by
  have hspl := square_split hlow.le hh
  have ho : 0 < (cur - med) * (cur - med) := Nat.mul_pos (by omega) (by omega)
  have hs : 0 < med * med := by omega
  rw [penalized, Nat.div_lt_iff_lt_mul hs]
  exact Nat.mul_lt_mul_of_pos_left (by omega) ham

theorem penalized_le (am : ℕ) (hlow : med ≤ cur)
    (hh : cur ≤ 2 * med) : penalized am med cur ≤ am := by
  have hspl := square_split hlow hh
  apply Nat.div_le_of_le_mul
  rw [Nat.mul_comm (med * med)]
  exact Nat.mul_le_mul_left _ (by omega)

theorem penalized_antitone (am : ℕ) {larger : ℕ} (hlow : med ≤ cur) (hle : cur ≤ larger)
    (hh : larger ≤ 2 * med) : penalized am med larger ≤ penalized am med cur := by
  have hspl := square_split hlow (hle.trans hh)
  have hspl' := square_split (hlow.trans hle) hh
  have ho : (cur - med) * (cur - med) ≤ (larger - med) * (larger - med) :=
    Nat.mul_le_mul (by omega) (by omega)
  exact Nat.div_le_div_right (Nat.mul_le_mul_left _ (by omega))

theorem sizes_product (hmed : ms.toNat < 2 ^ 32) (hlow : ms.toNat < cb.toNat)
    (hh : cb.toNat ≤ 2 * ms.toNat) : (cb * (2 * ms - cb)).toNat =
      cb.toNat * (2 * ms.toNat - cb.toNat) := by
  have hd : (2 * ms).toNat = 2 * ms.toNat := by
    rw [UInt64.toNat_mul, show UInt64.toNat 2 = 2 from rfl, Nat.mod_eq_of_lt (by omega)]
  have hs : ms.toNat * ms.toNat ≤ (2 ^ 32 - 1) * (2 ^ 32 - 1) :=
    Nat.mul_le_mul (by omega) (by omega)
  have hspl := square_split hlow.le hh
  rw [UInt64.toNat_mul, UInt64.toNat_sub_of_le _ _ (by
    rw [UInt64.le_iff_toNat_le, hd]
    exact hh), hd, Nat.mod_eq_of_lt (by omega)]

theorem wide_penalizedWords (hmed : ms.toNat < 2 ^ 32) (hlow : ms.toNat < cb.toNat)
    (hh : cb.toNat ≤ 2 * ms.toNat) : wide (penalizedWords amt ms cb) = amt.toNat * (cb.toNat *
        (2 * ms.toNat - cb.toNat)) / ms.toNat / ms.toNat := by
  have hnar : ms.toUInt32.toNat = ms.toNat := by
    rw [UInt64.toNat_toUInt32, Nat.mod_eq_of_lt hmed]
  have hdiv : 0 < ms.toUInt32.toNat := by omega
  simp only [penalizedWords]
  rw [div128_32_eq hdiv, div128_32_eq hdiv, mul128_eq, hnar, sizes_product hmed hlow hh]

theorem mul128_halves_le (a b : UInt64) : hiDword a * hiDword b ≤ (mul128 a b).1 := by
  have hpr := mul128_eq a b
  have hlow := (mul128 a b).2.toNat_lt
  have hle : (hiDword a).toNat * 2 ^ 32 * ((hiDword b).toNat * 2 ^ 32) ≤ a.toNat * b.toNat :=
    Nat.mul_le_mul (by have := halves_eq a; omega) (by have := halves_eq b; omega)
  rw [UInt64.le_iff_toNat_le, half_product_toNat (hiDword_lt a) (hiDword_lt b)]
  have hs : (hiDword a).toNat * 2 ^ 32 * ((hiDword b).toNat * 2 ^ 32) =
      (hiDword a).toNat * (hiDword b).toNat * 2 ^ 64 := by ring
  unfold wide at hpr
  omega

/-- The assertions of `getPenalizedAmount` after its early returns, and the
one of `mul128`. -/
def PenaltyAsserts (amount medianSize currentBlockSize : UInt64) : Prop :=
  let factor := currentBlockSize * (2 * medianSize - currentBlockSize)
  hiDword amount * hiDword factor ≤ (mul128 amount factor).1 ∧
    (penalizedWords amount medianSize currentBlockSize).1 = 0 ∧
    (penalizedWords amount medianSize currentBlockSize).2 < amount

theorem penalty_spec (hmed : ms.toNat < 2 ^ 32) (hlow : ms.toNat < cb.toNat)
    (hh : cb.toNat ≤ 2 * ms.toNat) : (amt ≠ 0 → PenaltyAsserts amt ms cb) ∧
      (getPenalizedAmount amt ms cb).toNat = penalized amt.toNat ms.toNat cb.toNat := by
  have hw := wide_penalizedWords amt hmed hlow hh
  rw [Nat.div_div_eq_div_mul, ← penalized] at hw
  by_cases hz : amt = 0
  · subst hz
    exact ⟨fun h => absurd rfl h,by simp [getPenalizedAmount, penalized]⟩
  have hpos : 0 < amt.toNat := Nat.pos_of_ne_zero fun h => hz (UInt64.toNat_inj.mp h)
  have hlt := penalized_lt hpos hlow hh
  have ham := amt.toNat_lt
  unfold wide at hw
  have hu : (penalizedWords amt ms cb).1.toNat = 0 := by omega
  have hlw : (penalizedWords amt ms cb).2.toNat = penalized amt.toNat ms.toNat cb.toNat := by omega
  constructor
  · intro _
    refine ⟨mul128_halves_le _ _,UInt64.toNat_inj.mp hu,?_⟩
    rw [UInt64.lt_iff_toNat_lt, hlw]
    exact hlt
  · have hlg : ¬ cb ≤ ms := by
      rw [UInt64.le_iff_toNat_le]
      omega
    rw [getPenalizedAmount, if_neg hz, if_neg hlg]
    exact hlw

/-- The penalty is the exact quotient by the square of the median, its
assertions hold, and it takes more from a larger block. -/
theorem getPenalizedAmount_exact (amount : UInt64) {medianSize : UInt64}
    (hmedian : medianSize.toNat < 2 ^ 32) :
    (∀ currentBlockSize : UInt64, currentBlockSize ≤ medianSize →
      getPenalizedAmount amount medianSize currentBlockSize = amount) ∧
    ∀ currentBlockSize : UInt64, medianSize < currentBlockSize →
      currentBlockSize.toNat ≤ 2 * medianSize.toNat → currentBlockSize.toNat < 2 ^ 32 →
      let product := amount.toNat *
        (currentBlockSize.toNat * (2 * medianSize.toNat - currentBlockSize.toNat))
      let result := getPenalizedAmount amount medianSize currentBlockSize
      result.toNat = product / medianSize.toNat / medianSize.toNat ∧
      result.toNat = product / (medianSize.toNat * medianSize.toNat) ∧
      (amount ≠ 0 → PenaltyAsserts amount medianSize currentBlockSize) ∧ result ≤ amount ∧
      ∀ larger : UInt64, currentBlockSize ≤ larger → larger.toNat ≤ 2 * medianSize.toNat →
        larger.toNat < 2 ^ 32 → getPenalizedAmount amount medianSize larger ≤ result := by
  refine ⟨fun _ h => getPenalizedAmount_of_le amount h,?_⟩
  intro currentBlockSize hlow hh hsm
  rw [UInt64.lt_iff_toNat_lt] at hlow
  obtain ⟨ha,hres⟩ := penalty_spec amount hmedian hlow hh
  refine ⟨?_,hres,ha,?_,?_⟩
  · rw [Nat.div_div_eq_div_mul]
    exact hres
  · rw [UInt64.le_iff_toNat_le, hres]
    exact penalized_le _ hlow.le hh
  · intro larger hle hl _
    rw [UInt64.le_iff_toNat_le] at hle
    have hla := (penalty_spec amount hmedian (hlow.trans_le hle) hl).2
    rw [UInt64.le_iff_toNat_le, hres, hla]
    exact penalized_antitone _ hlow.le hle hl

theorem getPenalizedAmount_exact_sample :
    (getPenalizedAmount 100 10 15).toNat = 100 * (15 * (2 * 10 - 15)) / 10 / 10 ∧
      getPenalizedAmount 100 10 20 ≤ getPenalizedAmount 100 10 15 := by
  have h := (getPenalizedAmount_exact 100 (show (10 : UInt64).toNat < 2 ^ 32 by decide)).2 15
    (by decide) (by decide) (by decide)
  exact ⟨h.1,h.2.2.2.2 20 (by decide) (by decide) (by decide)⟩

end Penalty

section Difficulty

variable (currency cy : Currency)

def Cuts (length cutBegin cutEnd : ℕ) : Prop :=
  if length ≤ currency.difficultyWindow - 2 * currency.difficultyCut then
    cutBegin = 0 ∧ cutEnd = length
  else
    cutBegin =
      (length - (currency.difficultyWindow - 2 * currency.difficultyCut) + 1) / 2 ∧
    cutEnd = cutBegin + (currency.difficultyWindow - 2 * currency.difficultyCut)

theorem cuts_bounds {length cutBegin cutEnd : ℕ}
    (hcut : 2 * cy.difficultyCut + 2 ≤ cy.difficultyWindow) (hlen : 2 ≤ length)
    (h : Cuts cy length cutBegin cutEnd) : cutBegin + 2 ≤ cutEnd ∧ cutEnd ≤ length := by
  unfold Cuts at h
  split_ifs at h <;> omega

theorem work_quotient (work tgt span : UInt64) (hw : 0 < work.toNat)
    (htgt : 0 < tgt.toNat) (hs : 0 < span.toNat) :
    let res := if (mul128 work tgt).1 ≠ 0 ∨
        (mul128 work tgt).2 + span - 1 < (mul128 work tgt).2 then 0
      else ((mul128 work tgt).2 + span - 1) / span
    (res = 0 ↔ 2 ^ 64 ≤ work.toNat * tgt.toNat + span.toNat - 1) ∧
    (work.toNat * tgt.toNat + span.toNat - 1 < 2 ^ 64 →
      res.toNat = work.toNat * tgt.toNat ⌈/⌉ span.toNat) := by
  have hpr := mul128_eq work tgt
  have hpos := Nat.mul_pos hw htgt
  generalize mul128 work tgt = product at *
  generalize work.toNat * tgt.toNat = exact at *
  unfold wide at hpr
  have hlow := product.2.toNat_lt
  have hlt := span.toNat_lt
  have hsum : (product.2 + span - 1).toNat = (product.2.toNat + span.toNat - 1) % 2 ^ 64 := by
    rw [UInt64.toNat_sub, UInt64.toNat_add, UInt64.toNat_one]
    omega
  have hovf : (product.1 ≠ 0 ∨ product.2 + span - 1 < product.2) ↔
      2 ^ 64 ≤ exact + span.toNat - 1 := by
    rw [UInt64.lt_iff_toNat_lt, hsum, ne_eq, ← UInt64.toNat_inj, UInt64.toNat_zero]
    omega
  by_cases hlg : 2 ^ 64 ≤ exact + span.toNat - 1
  · rw [if_pos (hovf.mpr hlg)]
    exact ⟨⟨fun _ => hlg,fun _ => rfl⟩,fun h => absurd hlg (by omega)⟩
  have hquo : ((product.2 + span - 1) / span).toNat = exact ⌈/⌉ span.toNat := by
    have hex : product.2.toNat = exact := by omega
    rw [UInt64.toNat_div, hsum, hex, Nat.mod_eq_of_lt (by omega), Nat.ceilDiv_eq_add_pred_div]
  have hone : 0 < exact ⌈/⌉ span.toNat := by
    rw [Nat.ceilDiv_eq_add_pred_div, Nat.div_pos_iff]
    omega
  rw [if_neg (hlg ∘ hovf.mp)]
  refine ⟨⟨fun h => ?_,fun h => absurd h hlg⟩,fun _ => hquo⟩
  rw [← UInt64.toNat_inj, hquo, UInt64.toNat_zero] at h
  omega

theorem entry_of_lt {v : List UInt64} {i : ℕ} (h : i < v.length) : v[i]? = some (v.getD i 0) := by
  rw [List.getElem?_eq_getElem h, List.getD_eq_getElem v 0 h]

theorem timeSpan_toNat {first last : UInt64} (h : first ≤ last) :
    (if last - first = 0 then 1 else last - first : UInt64).toNat =
      max 1 (last.toNat - first.toNat) := by
  have hs := UInt64.toNat_sub_of_le _ _ h
  by_cases hz : last - first = 0
  · rw [hz, UInt64.toNat_zero] at hs
    simp [hz, ← hs]
  · have hne : (last - first).toNat ≠ 0 := fun h => hz (UInt64.toNat_inj.mp h)
    rw [if_neg hz, hs]
    omega

theorem nextDifficulty_perm {timestamps o works : List UInt64}
    (h : (o.take cy.difficultyWindow).Perm (timestamps.take cy.difficultyWindow)) :
    cy.nextDifficulty o works = cy.nextDifficulty timestamps works := by
  simp only [Currency.nextDifficulty, h.length_eq, insertionSort_perm h]

/-- The next difficulty is the work over the time between the cuts, rounded
up, and zero exactly where the source gives up on the sum. -/
theorem nextDifficulty_exact {timestamps works : List UInt64}
    (hcut : 2 * currency.difficultyCut + 2 ≤ currency.difficultyWindow)
    (htarget : 0 < currency.difficultyTarget) (hlength : timestamps.length = works.length)
    (hworks : works.Pairwise (· < ·)) :
    let next := currency.nextDifficulty timestamps works
    let sorted := (timestamps.take currency.difficultyWindow).insertionSort (· ≤ ·)
    let length := min currency.difficultyWindow timestamps.length
    (length ≤ 1 → next = 1) ∧
    (2 ≤ length → ∃ cutBegin cutEnd firstTime lastTime firstWork lastWork,
      Cuts currency length cutBegin cutEnd ∧ cutBegin + 2 ≤ cutEnd ∧ cutEnd ≤ length ∧
      sorted[cutBegin]? = some firstTime ∧ sorted[cutEnd - 1]? = some lastTime ∧
      works[cutBegin]? = some firstWork ∧ works[cutEnd - 1]? = some lastWork ∧
      firstTime ≤ lastTime ∧ firstWork < lastWork ∧
      let work := lastWork.toNat - firstWork.toNat
      let span := max 1 (lastTime.toNat - firstTime.toNat)
      (next = 0 ↔ 2 ^ 64 ≤ work * currency.difficultyTarget.toNat + span - 1) ∧
      (work * currency.difficultyTarget.toNat + span - 1 < 2 ^ 64 →
        next.toNat = work * currency.difficultyTarget.toNat ⌈/⌉ span)) ∧
    ∀ other : List UInt64, (other.take currency.difficultyWindow).Perm
      (timestamps.take currency.difficultyWindow) → currency.nextDifficulty other works = next := by
  intro next sorted length
  have ht : (timestamps.take currency.difficultyWindow).length = length := List.length_take
  refine ⟨fun hsh => ?_,fun hl => ?_,fun other h => nextDifficulty_perm currency h⟩
  · simp only [next, Currency.nextDifficulty, ht, if_pos hsh]
  generalize hb : (if length ≤ currency.difficultyWindow - 2 * currency.difficultyCut then 0
    else (length - (currency.difficultyWindow - 2 * currency.difficultyCut) + 1) / 2) = cutBegin
  generalize hend : (if length ≤ currency.difficultyWindow - 2 * currency.difficultyCut then
    length else cutBegin + (currency.difficultyWindow - 2 * currency.difficultyCut)) = cutEnd
  have hc : Cuts currency length cutBegin cutEnd := by
    rw [Cuts, ← hend, ← hb]
    split_ifs <;> exact ⟨rfl,rfl⟩
  obtain ⟨htwo,hrg⟩ := cuts_bounds currency hcut hl hc
  have hsrt : sorted.length = length := (List.length_insertionSort _ _).trans ht
  have hbd : length ≤ works.length := by omega
  have hti := getD_insertionSort_mono (show cutBegin < cutEnd - 1 by omega)
    (show cutEnd - 1 < (timestamps.take currency.difficultyWindow).length by omega)
  have hw : works.getD cutBegin 0 < works.getD (cutEnd - 1) 0 := by
    rw [List.getD_eq_getElem _ _ (by omega), List.getD_eq_getElem _ _ (by omega)]
    exact List.pairwise_iff_getElem.mp hworks _ _ (by omega) (by omega) (by omega)
  refine ⟨cutBegin,cutEnd,_,_,_,_,hc,htwo,hrg,entry_of_lt (by omega),entry_of_lt (by omega),
    entry_of_lt (by omega),entry_of_lt (by omega),hti,hw,?_⟩
  have hta : ∀ i < length, (works.take currency.difficultyWindow).getD i 0 = works.getD i 0 := by
    intro i hi
    rw [List.getD_eq_getElem?_getD, List.getElem?_take_of_lt (by omega), List.getD_eq_getElem?_getD]
  have hs := timeSpan_toNat hti
  have hd := UInt64.toNat_sub_of_le _ _ (UInt64.le_of_lt hw)
  have hquo := work_quotient _ currency.difficultyTarget _
    (hd ▸ Nat.sub_pos_of_lt (UInt64.lt_iff_toNat_lt.mp hw))
    (UInt64.lt_iff_toNat_lt.mp htarget) (hs ▸ Nat.lt_of_lt_of_le Nat.one_pos (le_max_left _ _))
  rw [hd, hs] at hquo
  simp only [next, Currency.nextDifficulty, ht, if_neg (show ¬ length ≤ 1 by omega), hb,
    hend, hta cutBegin (by omega), hta (cutEnd - 1) (by omega)]
  exact hquo

def unminedBlock : Block := ⟨1,0,0,0,0,⟨⟨1,0,[],[],[]⟩,[],bare_signed⟩,[]⟩

theorem nextDifficulty_exact_sample :
    (Currency.configured 0 unminedBlock).nextDifficulty [222, 0, 100] [1, 2, 4] =
      (Currency.configured 0 unminedBlock).nextDifficulty [0, 100, 222] [1, 2, 4] :=
  (nextDifficulty_exact _ (by decide) (by decide) (by decide) (by decide)).2.2 _ (by decide)

end Difficulty

end Orbis.CurrencyExact
